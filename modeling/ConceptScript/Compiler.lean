import ConceptScript.Expansion
import ConceptScript.Model.Order
import ConceptScript.Statement.Sequence

namespace ConceptScript

structure Compiler where
  registry : Registry
  rules : Derivations := []
  options : Options := {}
  /-- Concepts that are there before any script is read. -/
  initial : List Node := []

/-- A saturated model and the advice of its scripts. -/
structure Compilation where
  model : Model
  warnings : List Warning

namespace Compiler

def seeds (c : Compiler) (parsed : List ParsedConcept) : List Seed :=
  c.initial.map (⟨·, .initial⟩) ++ parsed.map fun p => ⟨p.node, .script p.location⟩

/-- What becomes of parsed scripts: in strict mode the first warning ends the job. -/
def finish (c : Compiler) (parsed : Parsed) : Except Diagnostic Compilation := do
  if c.options.strictWarnings then
    if let w :: _ := parsed.warnings then
      throw w.toDiagnostic
  let model ← expand c.registry c.rules c.options (c.seeds parsed.concepts)
  let _ ← model.dependencyOrder
  return ⟨model, parsed.warnings⟩

def compile (c : Compiler) (scripts : List Script) : Parsing Compilation := do
  let parsed ← parseScripts c.registry c.options scripts
  ExceptT.mk (pure (c.finish parsed))

/-- Compiles with nothing known of list texts. -/
def compileFresh (c : Compiler) (scripts : List Script) : Except Diagnostic Compilation :=
  ((c.compile scripts).run {}).1

end Compiler

end ConceptScript
