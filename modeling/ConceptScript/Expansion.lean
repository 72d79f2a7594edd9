import ConceptScript.Model
import ConceptScript.Options
import ConceptScript.Queue

namespace ConceptScript

/-- A rule that derives concepts from a concept of a type, and from the model if it reads it. -/
structure Derivation where
  onType : String
  readsModel : Bool
  derive : Node → Model → Except Diagnostic (List Node)

/-- Derivations in the order they were given. -/
abbrev Derivations := List Derivation

namespace Derivations

/-- Those that apply to a type: its own first, then those of its ancestors. -/
def forType (ds : Derivations) (t : ConceptType) : List Derivation :=
  t.ancestors.flatMap fun name => ds.filter fun d => d.onType == name

/-- Names the first type, in the order of names, that the registry does not know. -/
def check (ds : Derivations) (r : Registry) : Except Diagnostic Unit :=
  let unknown := (ds.map Derivation.onType).filter fun name => (r.find? name).isNone
  match unknown.mergeSort fun a b => decide (a ≤ b) with
  | [] => .ok ()
  | name :: _ => .error {
      code := .invalidRegistry
      message := s!"macro registered for unknown concept type '{name}'" }

end Derivations

/-- A concept on its way into a model. -/
structure Seed where
  node : Node
  origin : Origin

/-- A model on its way to saturation. -/
structure Expansion where
  model : Model
  queue : Queue Seed
  /-- The size of the model when the last round of model readers began. -/
  roundSize : Option Nat := none
  /-- The latest derivations, the oldest first. -/
  recent : List String := []

namespace Expansion

/-- How many derivations the report of an endless expansion lists. -/
def recentLimit : Nat := 10

/-- A failed rule names the concept it was used on, unless the failure is its own. -/
def blame (key : String) (d : Diagnostic) : Diagnostic :=
  if d.code = .derivationFailed then d
  else { d with message := s!"macro of '{key}' failed: {d.message}" }

/-- The concepts that some rules derive from an entry, as seeds. -/
def derive (model : Model) (e : Entry) : List Derivation → Except Diagnostic (List Seed)
  | [] => .ok []
  | d :: ds => do
    let nodes ← (d.derive e.node model).mapError (blame e.key)
    let rest ← derive model e ds
    return nodes.map (⟨·, .derived e.key⟩) ++ rest

/-- Uses the rules that apply to the entry at an index. -/
def deriveAt (rules : Derivations) (onlyReaders : Bool) (model : Model) (index : Nat) :
    Except Diagnostic (List Seed) :=
  match model.entries[index]? with
  | none => .ok []
  | some e =>
    derive model e ((rules.forType e.node.type).filter fun d => !onlyReaders || d.readsModel)

def deriveAll (rules : Derivations) (onlyReaders : Bool) (model : Model) :
    List Nat → Except Diagnostic (List Seed)
  | [] => .ok []
  | i :: is => do
    let first ← deriveAt rules onlyReaders model i
    let rest ← deriveAll rules onlyReaders model is
    return first ++ rest

def resolvedIndexes (model : Model) : List Nat :=
  (List.range model.size).filter fun i => (model.entries[i]?.map Entry.isResolved).getD false

/-- When nothing is left to insert, lets the rules that read the model see it once more, unless
the model has not grown since they last did. -/
def refill (rules : Derivations) (x : Expansion) : Except Diagnostic Expansion :=
  if !x.queue.isEmpty || x.roundSize == some x.model.size then .ok x
  else do
    let seeds ← deriveAll rules true x.model (resolvedIndexes x.model)
    return { x with queue := x.queue.pushAll seeds, roundSize := some x.model.size }

def note (recent : List String) (key : String) : Origin → List String
  | .derived source =>
    let all := recent ++ [s!"{key} <- {source}"]
    all.drop (all.length - recentLimit)
  | _ => recent

/-- Inserts a seed and uses the rules on the entries it completes. -/
def step (rules : Derivations) (x : Expansion) (seed : Seed) : Except Diagnostic Expansion := do
  let { model, queue, roundSize, recent } := x
  match ← model.insert seed.node seed.origin with
  | (.duplicate, model) => return { model, queue, roundSize, recent }
  | (.added _ resolved, model) =>
    let seeds ← deriveAll rules false model resolved
    return {
      model
      queue := queue.pushAll seeds
      roundSize
      recent := note recent seed.node.key seed.origin }

def diverged (limit : Nat) (x : Expansion) : Diagnostic where
  code := .expansionDiverged
  message := s!"macro expansion did not converge within {limit} steps"
  causes := "macros keep deriving new concepts, most likely a cyclic derivation; the most recent derivations are listed in the details"
  details := x.recent

/-- Takes seeds from the queue until it stays empty. The budget is the number of seeds that may
still be taken. -/
def run (rules : Derivations) (limit : Nat) : Nat → Expansion → Except Diagnostic Model
  | budget, x => do
    let x ← x.refill rules
    match x.queue.pop? with
    | none => return x.model
    | some (seed, queue) =>
      match budget with
      | 0 => throw (diverged limit x)
      | budget + 1 => run rules limit budget (← step rules { x with queue } seed)

end Expansion

/-- Saturates seeds under the rules. -/
def expand (registry : Registry) (rules : Derivations) (options : Options) (seeds : List Seed) :
    Except Diagnostic Model := do
  rules.check registry
  let limit := options.maxExpansionSteps
  let model ← Expansion.run rules limit limit { model := { registry }, queue := .ofList seeds }
  model.checkResolved
  return model

end ConceptScript
