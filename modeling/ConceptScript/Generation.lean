import ConceptScript.Buffer
import ConceptScript.Model.Order

namespace ConceptScript

/-- The texts of a generation by the names of their artifacts. -/
structure Workspace where
  options : GenerationOptions := {}
  buffers : List (String × Buffer) := []

namespace Workspace

def find? (w : Workspace) (artifact : String) : Option Buffer :=
  (w.buffers.find? fun (name, _) => name == artifact).map Prod.snd

/-- The buffer of an artifact, empty on first use. -/
def buffer (w : Workspace) (artifact : String) : Buffer :=
  (w.find? artifact).getD { options := w.options }

def put (w : Workspace) (artifact : String) (b : Buffer) : Workspace :=
  if (w.find? artifact).isSome then
    { w with buffers := w.buffers.map fun (name, old) => (name, if name == artifact then b else old) }
  else { w with buffers := w.buffers ++ [(artifact, b)] }

/-- The finished artifacts in the order of their names. -/
def finish (w : Workspace) : List (String × String) :=
  (w.buffers.map fun (name, b) => (name, b.finish)).mergeSort fun a b => decide (a.1 ≤ b.1)

end Workspace

/-- Writes code for the concepts of a type. -/
structure Generator where
  onType : String
  generate : Node → Model → Workspace → Except GenerationError Workspace

abbrev Generators := List Generator

namespace Generators

def forType (gs : Generators) (t : ConceptType) : List Generator :=
  gs.filter fun g => t.isA g.onType

def check (gs : Generators) (r : Registry) : Except GenerationError Unit :=
  match gs.find? fun g => (r.find? g.onType).isNone with
  | none => .ok ()
  | some g => .error (.model {
      code := .invalidRegistry
      message := s!"generator registered for unknown concept type '{g.onType}'" })

/-- Lets each concept of a list write its code, with all generators of its type. -/
def run (gs : Generators) (m : Model) (w : Workspace) :
    List Node → Except GenerationError Workspace
  | [] => .ok w
  | n :: ns => do
    let w ← (gs.forType n.type).foldlM (fun w g => g.generate n m w) w
    gs.run m w ns

end Generators

/-- The artifacts of a model, written in dependency order. -/
def generate (m : Model) (gs : Generators) (options : GenerationOptions) :
    Except GenerationError (List (String × String)) := do
  gs.check m.registry
  let order ← m.dependencyOrder.mapError .model
  let w ← gs.run m { options } (order.map Entry.node)
  return w.finish

end ConceptScript
