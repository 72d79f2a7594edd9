import ConceptScript.Script

namespace ConceptScript

/-- The kinds of failure. Tools match on their labels, which stay fixed. -/
inductive Code where
  | lexical
  | invalidSyntax
  | unrecognizedKeyword
  | expectedKeyword
  | missingTerminator
  | unexpectedClosingBrace
  | unclosedConcept
  | ambiguousSyntax
  | invalidPropertyList
  | duplicateKey
  | unresolvedReference
  | referenceTypeMismatch
  | dependencyCycle
  | expansionDiverged
  | strictWarning
  | invalidConcept
  | invalidRegistry
  | derivationFailed
  | unreadableScript
  deriving Repr, DecidableEq, Inhabited

def Code.label : Code → String
  | .lexical => "DSL0001"
  | .invalidSyntax => "DSL0002"
  | .unrecognizedKeyword => "DSL0003"
  | .expectedKeyword => "DSL0004"
  | .missingTerminator => "DSL0005"
  | .unexpectedClosingBrace => "DSL0006"
  | .unclosedConcept => "DSL0007"
  | .ambiguousSyntax => "DSL0008"
  | .invalidPropertyList => "DSL0009"
  | .duplicateKey => "DSL0010"
  | .unresolvedReference => "DSL0011"
  | .referenceTypeMismatch => "DSL0012"
  | .dependencyCycle => "DSL0013"
  | .expansionDiverged => "DSL0014"
  | .strictWarning => "DSL0015"
  | .invalidConcept => "DSL0016"
  | .invalidRegistry => "DSL0017"
  | .derivationFailed => "DSL0018"
  | .unreadableScript => "DSL0019"

/-- A failure that ends the job. The causes are a hint for the reader, the details are complete
and meant for logs. -/
structure Diagnostic where
  code : Code
  message : String
  causes : Option String := none
  location : Option Location := none
  details : List String := []
  deriving Repr, DecidableEq, Inhabited

namespace Diagnostic

def display (d : Diagnostic) : String :=
  s!"{d.code.label}: {d.message}" ++
    match d.location with
    | some l => s!" (at {l.display})"
    | none => ""

/-- The location given, or the one already there. -/
def atLocation? (d : Diagnostic) (location : Option Location) : Diagnostic :=
  { d with location := location <|> d.location }

end Diagnostic

/-- Advice that ends the job only in strict mode. -/
structure Warning where
  message : String
  location : Option Location
  deriving Repr, DecidableEq, Inhabited

namespace Warning

def display (w : Warning) : String :=
  match w.location with
  | some l => s!"warning: {w.message} (at {l.display})"
  | none => s!"warning: {w.message}"

def toDiagnostic (w : Warning) : Diagnostic where
  code := .strictWarning
  message := w.message
  location := w.location
  causes := some "strict mode treats every warning as an error"

end Warning

end ConceptScript
