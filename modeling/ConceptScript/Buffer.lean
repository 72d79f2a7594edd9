import ConceptScript.Diagnostic
import ConceptScript.Tag

namespace ConceptScript

/-- Why code is not generated. -/
inductive GenerationError where
  | tagNotFound (marker : String)
  | tagAlreadyUsed (marker : String)
  | invalidTag (tag : Tag) (fault : Tag.Fault)
  | generator (type concept message : String)
  | model (d : Diagnostic)
  | file (path reason : String)
  deriving Repr, DecidableEq

namespace GenerationError

def label : GenerationError → String
  | tagNotFound _ => "GEN0001"
  | tagAlreadyUsed _ => "GEN0002"
  | invalidTag _ _ => "GEN0003"
  | generator _ _ _ => "GEN0005"
  | model d => d.code.label
  | file _ _ => "GEN0006"

def message : GenerationError → String
  | tagNotFound marker => s!"tag not found: '{marker}'"
  | tagAlreadyUsed marker => s!"tag already used: '{marker}' accepts only one insertion"
  | invalidTag tag fault => s!"invalid tag '{tag.type}.{tag.name}': {fault.message}"
  | generator type concept reason => s!"generator for '{type}' failed on '{concept}': {reason}"
  | model d => d.display
  | file path reason => s!"I/O error on '{path}': {reason}"

end GenerationError

/-- Generated text with markers in it. -/
structure Buffer where
  options : GenerationOptions := {}
  text : String := ""
  /-- The markers that something was inserted at. -/
  used : List String := []
  deriving Repr, DecidableEq, Inhabited

namespace Buffer

def append (b : Buffer) (text : String) : Buffer := { b with text := b.text ++ text }

def contains (b : Buffer) (marker : String) : Bool := Text.contains b.text marker

def marker (b : Buffer) (tag : Tag) (concept : Node) : Except GenerationError String :=
  (tag.marker b.options concept).mapError (.invalidTag tag)

/-- The texts before and after the first occurrence of a marker. -/
def locate (b : Buffer) (marker : String) : Except GenerationError (String × String) :=
  match Text.cutAt? marker.toList b.text.toList with
  | some (before, after) => .ok (.ofList before, .ofList after)
  | none =>
    if b.used.contains marker then .error (.tagAlreadyUsed marker)
    else .error (.tagNotFound marker)

def use (b : Buffer) (marker text : String) : Buffer :=
  { b with text, used := if b.used.contains marker then b.used else marker :: b.used }

/-- Puts a text in the place of a marker, wherever it stands. -/
def replace (b : Buffer) (marker text : String) : Except GenerationError Buffer := do
  let _ ← b.locate marker
  return b.use marker (Text.replace b.text marker text)

def insertBefore (b : Buffer) (marker text : String) : Except GenerationError Buffer := do
  let (before, after) ← b.locate marker
  return b.use marker (before ++ text ++ marker ++ after)

def insertAfter (b : Buffer) (marker text : String) : Except GenerationError Buffer := do
  let (before, after) ← b.locate marker
  return b.use marker (before ++ marker ++ text ++ after)

/-- Inserts a text at the marker of a tag for a concept. -/
def insert (b : Buffer) (text : String) (tag : Tag) (concept : Node) :
    Except GenerationError Buffer := do
  let marker ← b.marker tag concept
  let again := b.used.contains marker
  let wrapped := tag.wrapped (!again) text
  match tag.discipline with
  | .single => if again then throw (.tagAlreadyUsed marker) else b.replace marker wrapped
  | .appendable => b.insertBefore marker wrapped
  | .reverse => b.insertAfter marker wrapped

/-- A text without what stands between delimiters, from an opening one to the next closing one,
delimiters included. -/
def strip (opening closing : List Char) (h : opening ≠ [] ∨ closing ≠ []) (text : List Char) :
    List Char :=
  match _ho : Text.cutAt? opening text with
  | none => text
  | some (before, inside) =>
    match _hc : Text.cutAt? closing inside with
    | none => text
    | some (_, after) => before ++ strip opening closing h after
termination_by text.length
decreasing_by
  have ho := congrArg List.length (Text.eq_of_cutAt? _ho)
  have hc := congrArg List.length (Text.eq_of_cutAt? _hc)
  simp only [List.length_append] at ho hc
  rcases h with h | h
  all_goals
    have := List.length_pos_iff.2 h
    omega

/-- The text without the markers that are left, unless they are to stay. -/
def finish (b : Buffer) : String :=
  if b.options.keepUnusedTags then b.text
  else
    let opening := b.options.tagOpen.toList
    let closing := b.options.tagClose.toList
    if h : opening ≠ [] ∨ closing ≠ [] then .ofList (strip opening closing h b.text.toList)
    else b.text

end Buffer

end ConceptScript
