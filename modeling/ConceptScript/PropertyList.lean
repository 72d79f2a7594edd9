import Std.Data.HashMap
import ConceptScript.Text.Blank
import ConceptScript.Text.Fields
import ConceptScript.Text.Quoted
import ConceptScript.Text.Search

namespace ConceptScript.PropertyList

inductive Fault where
  | empty
  | separator (text : String) (found : Char)
  | outerSpace (text : String)
  | doubleSpace (text : String)
  | dotted (element : String)
  deriving Repr, DecidableEq

def Fault.message : Fault → String
  | .empty => "property list is empty"
  | .separator text found =>
    s!"property list '{text}' contains separator " ++ Text.quotedCharacter found ++
      "; separate names with a single space"
  | .outerSpace text => s!"property list '{text}' has leading or trailing spaces"
  | .doubleSpace text => s!"property list '{text}' separates names with more than one space"
  | .dotted element => s!"property list element '{element}' must be a bare name without a dot"

/-- What a list writer may take for a separator. -/
def isSeparator (c : Char) : Bool :=
  (Text.isBlank c && c != ' ') || c == ',' || c == ';' || c == '|'

/-- The names of a list that is written with one space between them. -/
def split (text : String) : Except Fault (List String) :=
  let cs := text.toList
  if cs.all Text.isBlank then .error .empty
  else
    match cs.find? isSeparator with
    | some c => .error (.separator text c)
    | none =>
      if cs.head? = some ' ' || cs.getLast? = some ' ' then .error (.outerSpace text)
      else if Text.contains text "  " then .error (.doubleSpace text)
      else
        let names := (Text.fields ' ' cs).map String.ofList
        match names.find? fun name => name.toList.contains '.' with
        | some name => .error (.dotted name)
        | none => .ok names

/-- What is known of the list texts met so far; jobs may hand it on to one another. -/
structure Cache where
  known : Std.HashMap String (Except Fault (List String)) := ∅

namespace Cache

def size (cache : Cache) : Nat := cache.known.size

def isEmpty (cache : Cache) : Bool := cache.size == 0

def split (cache : Cache) (text : String) : Except Fault (List String) × Cache :=
  match cache.known[text]? with
  | some answer => (answer, cache)
  | none =>
    let answer := PropertyList.split text
    (answer, ⟨cache.known.insert text answer⟩)

end Cache

end ConceptScript.PropertyList
