import ConceptScript.Compiler
import ConceptScript.Sample.Language

namespace ConceptScript.Sample

def invalid (message : String) : Diagnostic := { code := .invalidConcept, message }

def nodeOf (r : Registry) (type : String) : Except Diagnostic Node :=
  return .ofType (← r.require type)

/-- Each entity has an identifier. -/
def identifier (r : Registry) (entity : Node) (_ : Model) : Except Diagnostic (List Node) := do
  let id ← nodeOf r guidProperty
  let id ← id.put "DataStructure" (.referenceTo entity)
  return [← id.put "Name" (.text "ID")]

/-- A reference by name only points at the data structure of that name in the module of its
owner, through a property of the same name. -/
def fullReference (r : Registry) (simple : Node) (_ : Model) : Except Diagnostic (List Node) := do
  let some owner := simple.parent? | throw (invalid s!"'{simple.key}' has no owner")
  let some module := owner.reference? "Module" | throw (invalid s!"'{owner.key}' has no module")
  let name := (simple.text? "Name").getD ""
  let target ← nodeOf r dataStructure
  let target ← target.put "Module" (.reference module)
  let target ← target.put "Name" (.text name)
  let full ← nodeOf r referenceProperty
  let full ← full.put "DataStructure" (.reference owner)
  let full ← full.put "Name" (.text name)
  return [← full.put "Referenced" (.referenceTo target)]

def loggedProperty (r : Registry) (logging property : Node) : Except Diagnostic Node := do
  let log ← nodeOf r logProperty
  let log ← log.put "Logging" (.referenceTo logging)
  log.put "Property" (.referenceTo property)

/-- A logged entity logs each of its properties, those that other rules add included. -/
def loggedProperties (r : Registry) (logging : Node) (m : Model) :
    Except Diagnostic (List Node) :=
  match logging.parent? with
  | none => .ok []
  | some owner =>
    ((m.children owner.key).filter fun n => n.type.isA property).mapM (loggedProperty r logging)

def rules (r : Registry) : Derivations := [
  ⟨entity, false, identifier r⟩,
  ⟨simpleReference, false, fullReference r⟩,
  ⟨logging, true, loggedProperties r⟩]

def compiler (r : Registry) (options : Options) : Except Diagnostic Compiler :=
  return { registry := r, rules := rules r, options, initial := [← nodeOf r initialization] }

end ConceptScript.Sample
