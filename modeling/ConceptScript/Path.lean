import ConceptScript.Text.Fields

namespace ConceptScript

/-- A step of a file path. -/
inductive Step where
  | root
  | current
  | parent
  | down (name : String)
  deriving Repr, DecidableEq, Inhabited

namespace Step

def ofName : String → Step
  | "." => current
  | ".." => parent
  | name => down name

def display : Step → String
  | root => "/"
  | current => "."
  | parent => ".."
  | down name => name

end Step

/-- A file path as its steps. -/
abbrev Path := List Step

namespace Path

/-- The steps of a written path. Repeated and final slashes say nothing, and neither does a dot
that is not the first step. -/
def ofText (text : String) : Path :=
  let cs := text.toList
  let names := ((Text.fields '/' cs).filter (· ≠ [])).map fun f => Step.ofName (.ofList f)
  if cs.head? = some '/' then .root :: names.filter (· ≠ .current)
  else
    match names with
    | [] => []
    | first :: rest => first :: rest.filter (· ≠ .current)

/-- Takes a step from a path whose last step comes first. A step to the parent takes back the
last one, the root included. -/
def follow (reversed : Path) : Step → Path
  | .current => reversed
  | .parent => reversed.tail
  | step => step :: reversed

def normalize (p : Path) : Path := (p.foldl follow []).reverse

def display : Path → String
  | .root :: steps => "/" ++ "/".intercalate (steps.map Step.display)
  | steps => "/".intercalate (steps.map Step.display)

end Path

end ConceptScript
