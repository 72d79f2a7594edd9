import ConceptScript.Node
import ConceptScript.PropertyList
import ConceptScript.Token

namespace ConceptScript

/-- Why a concept type does not read a statement that starts with its keyword. -/
inductive Mismatch where
  | noParent (type context : String)
  | parentNotReference (member type : String)
  | wrongParent (type context member : String) (target : Target)
  | expected (member type what : String) (found : Token)
  | partCount (member type : String) (parts : List String) (target : String) (arity : Nat)
  | pathEnded
  | partsMissing (member type : String) (arity : Nat)
  | listInPath (member type : String)
  | onlyNesting (member type : String) (target : Target)
  | unknownType (name : String)
  | openList (member type : String)
  | trailing (type : String) (parts : List String)
  | tooFewParts (type : String)
  | unnameable (type : String)
  | ownerless (type element : String)
  | notSingleName (name type : String)
  | misfit (m : Node.Misfit)

def Mismatch.message : Mismatch → String
  | noParent type context => s!"'{type}' cannot be nested in '{context}': it has no parent member"
  | parentNotReference member type => s!"parent member '{member}' of '{type}' is not a reference"
  | wrongParent type context member target =>
    s!"'{type}' cannot be nested in '{context}': member '{member}' expects {target.display}"
  | expected member type what found =>
    s!"member '{member}' of '{type}' expects {what}, found {found.display}"
  | partCount member type parts target arity =>
    s!"member '{member}' of '{type}': reference '" ++ ".".intercalate parts ++
      s!"' to {target} needs {arity} dot-separated part(s), found {parts.length}"
  | pathEnded => "dotted path ended early"
  | partsMissing member type arity =>
    s!"member '{member}' of '{type}' needs {arity} more dotted part(s)"
  | listInPath member type =>
    s!"property list '{member}' of '{type}' cannot be part of a dotted path"
  | onlyNesting member type target =>
    s!"member '{member}' of '{type}' references {target.display} and can only be bound by nesting"
  | unknownType name => s!"unknown concept type '{name}'"
  | openList member type =>
    s!"member '{member}' of '{type}' lists open references and cannot be written in a script"
  | trailing type parts =>
    s!"'{type}' has no member for the trailing part(s) '" ++ ".".intercalate parts ++ "'"
  | tooFewParts type => s!"too few parts for a reference to {type}"
  | unnameable type => s!"{type} cannot be referenced by name"
  | ownerless type element =>
    s!"'{type}' lists {element} elements but is not nested in a concept that owns them"
  | notSingleName name type =>
    s!"'{name}' cannot be listed by a bare name: {type} is not keyed by a single name"
  | misfit m => m.message

/-- What makes a written property list unusable. -/
inductive ListFault where
  | split (f : PropertyList.Fault)
  | notAName (found : Token)
  | element (m : Mismatch)

def ListFault.message : ListFault → String
  | split f => f.message
  | notAName found => s!"expected a name or ']' in property list, found {found.display}"
  | element m => m.message

end ConceptScript
