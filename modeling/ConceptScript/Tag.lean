import ConceptScript.Node
import ConceptScript.Text.Search
import ConceptScript.Text.WordCharacter

namespace ConceptScript

/-- The settings of code generation. -/
structure GenerationOptions where
  tagOpen : String := "/*<"
  tagClose : String := ">*/"
  /-- Whether markers that nothing was inserted at stay in the text. -/
  keepUnusedTags : Bool := false
  deriving Repr, DecidableEq, Inhabited

/-- What an insertion leaves of its marker. -/
inductive Discipline where
  /-- The text takes the place of the marker, so there is one insertion. -/
  | single
  /-- The marker stays behind the text, so texts keep their order. -/
  | appendable
  /-- The marker stays in front of the text, so the latest text comes first. -/
  | reverse
  deriving Repr, DecidableEq, Inhabited

/-- A named place in generated code that the concepts of a type have. -/
structure Tag where
  type : String
  name : String
  discipline : Discipline
  /-- The body of the marker, with slots for the key of the concept. -/
  template? : Option String := none
  /-- How the first and the later texts at a marker are wrapped. -/
  wrap? : Option (String × String) := none
  deriving Repr, DecidableEq, Inhabited

namespace Tag

/-- Why a tag has no marker for a concept. -/
inductive Fault where
  | wrongType (type key : String)
  | delimiterInKey (part key : String)
  | noSuchPart (slot : String) (available : Nat)
  deriving Repr, DecidableEq

def Fault.message : Fault → String
  | .wrongType type key => s!"declared on {type} but evaluated for '{key}'"
  | .delimiterInKey part key => s!"key part '{part}' of '{key}' contains a marker delimiter"
  | .noSuchPart slot available =>
    s!"template slot \x7b{slot}\x7d has no matching key part ({available} available)"

/-- The name of a slot whose opening brace has just been read, and the text after the slot. -/
def slot? (cs : List Char) : Option (List Char × List Char) :=
  match cs.takeWhile Text.isWordCharacter, cs.dropWhile Text.isWordCharacter with
  | name, '\x7d' :: rest => if name = [] then none else some (name, rest)
  | _, _ => none

theorem length_lt_of_slot? {cs name rest : List Char} (h : slot? cs = some (name, rest)) :
    rest.length < cs.length := by
  unfold slot? at h
  split at h
  · next hd =>
    split at h
    · simp at h
    · obtain ⟨rfl, rfl⟩ := Prod.mk.inj (Option.some.inj h)
      have := (List.dropWhile_suffix (l := cs) Text.isWordCharacter).length_le
      rw [hd] at this
      simp at this
      omega
  · simp at h

/-- What a slot stands for: the whole key, or the key part with a number. -/
def slotValue (parts : List String) (name : List Char) : Except Fault String :=
  if name = "key".toList then .ok (".".intercalate parts)
  else
    let part? :=
      if name.all Char.isDigit then parts[name.foldl (fun n d => 10 * n + (d.toNat - 48)) 0]?
      else none
    match part? with
    | some part => .ok part
    | none => .error (.noSuchPart (.ofList name) parts.length)

/-- A template with its slots filled. -/
def fill (parts : List String) : List Char → Except Fault (List Char)
  | [] => .ok []
  | c :: cs =>
    if c = '\x7b' then
      match _h : slot? cs with
      | some (name, rest) => do
        let value ← slotValue parts name
        return value.toList ++ (← fill parts rest)
      | none => return c :: (← fill parts cs)
    else return c :: (← fill parts cs)
termination_by cs => cs.length
decreasing_by
  · have := length_lt_of_slot? _h
    simp
    omega
  · simp
  · simp

/-- What stands between the delimiters of a marker. -/
def body (tag : Tag) (parts : List String) : Except Fault String :=
  match tag.template? with
  | none => .ok (tag.type ++ " " ++ tag.name ++ " " ++ ".".intercalate parts)
  | some template => (fill parts template.toList).map .ofList

/-- The marker of a tag for a concept. -/
def marker (tag : Tag) (options : GenerationOptions) (concept : Node) : Except Fault String := do
  if !concept.type.isA tag.type then throw (.wrongType tag.type concept.key)
  let parts := concept.keyParts
  let holdsDelimiter := fun part =>
    Text.contains part options.tagOpen || Text.contains part options.tagClose
  if let some part := parts.find? holdsDelimiter then
    throw (.delimiterInKey part concept.key)
  return options.tagOpen ++ (← tag.body parts) ++ options.tagClose

/-- A text as it is inserted at a marker. -/
def wrapped (tag : Tag) (first : Bool) (text : String) : String :=
  match tag.wrap? with
  | none => text
  | some (initial, later) => Text.replace (if first then initial else later) "\x7btext\x7d" text

end Tag

end ConceptScript
