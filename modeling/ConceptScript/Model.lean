import Std.Data.HashMap
import ConceptScript.Node
import ConceptScript.Registry

namespace ConceptScript

/-- How a concept came into a model. -/
inductive Origin where
  | script (location : Location)
  /-- Derived from the concept with this key. -/
  | derived (source : String)
  | initial
  deriving Repr, DecidableEq, Inhabited

namespace Origin

def location? : Origin → Option Location
  | script location => some location
  | _ => none

def display : Origin → String
  | script location => s!"script {location.display}"
  | derived source => s!"macro of '{source}'"
  | initial => "initial concepts"

end Origin

structure Entry where
  node : Node
  origin : Origin
  key : String
  /-- How many references have no concept in the model yet. -/
  unresolved : Nat
  deriving Inhabited

def Entry.isResolved (e : Entry) : Bool := e.unresolved == 0

/-- A reference of an entry that no concept answers yet. -/
structure Waiting where
  entry : Nat
  member : String
  target : Target
  deriving Repr, DecidableEq, Inhabited

/-- Entries by a name, in the order they came. -/
abbrev Index := Std.HashMap String (Array Nat)

def Index.push (index : Index) (name : String) (entry : Nat) : Index :=
  index.alter name fun entries => some ((entries.getD #[]).push entry)

/-- What came of an insertion: an entry with those it completes, itself included, or nothing
for a concept that was there. -/
inductive Insertion where
  | added (index : Nat) (resolved : List Nat)
  | duplicate
  deriving Repr, DecidableEq

/-- Concepts under their keys, with what refers to what. -/
structure Model where
  registry : Registry
  entries : Array Entry := #[]
  byKey : Std.HashMap String Nat := ∅
  byType : Index := ∅
  byReference : Index := ∅
  byParent : Index := ∅
  waiting : Std.HashMap String (Array Waiting) := ∅

namespace Model

def size (m : Model) : Nat := m.entries.size

def isEmpty (m : Model) : Bool := m.entries.isEmpty

def contains (m : Model) (key : String) : Bool := m.byKey.contains key

def entry? (m : Model) (key : String) : Option Entry := m.byKey[key]?.bind (m.entries[·]?)

def find? (m : Model) (key : String) : Option Node := (m.entry? key).map Entry.node

/-- The concept that a reference points at. -/
def resolve (m : Model) (reference : Node) : Option Node := m.find? reference.key

def concepts (m : Model) : List Node := m.entries.toList.map Entry.node

def select (m : Model) (index : Index) (name : String) : List Node :=
  (index.getD name #[]).toList.filterMap fun i => m.entries[i]?.map Entry.node

/-- The concepts of a type, of the types derived from it and of those that implement it. -/
def ofType (m : Model) (name : String) : List Node := m.select m.byType name

def referencing (m : Model) (key : String) : List Node := m.select m.byReference key

def children (m : Model) (key : String) : List Node := m.select m.byParent key

def display (m : Model) : String :=
  s!"DslModel \x7b concepts: {m.size}, waiting: {m.waiting.size} \x7d"

def duplicateKey (prior : Entry) (node : Node) (origin : Origin) : Diagnostic where
  code := .duplicateKey
  message := s!"'{prior.key}' is defined twice with different content"
  location := origin.location? <|> prior.origin.location?
  causes := s!"first defined as {prior.node.typeName} by {prior.origin.display}; then as {node.typeName} by {origin.display}"

def incomplete (node : Node) (origin : Origin) : Diagnostic where
  code := .invalidConcept
  message := s!"'{node.key}' is missing member(s): " ++ ", ".intercalate node.missing
  location := origin.location?
  causes := s!"created by {origin.display}"

/-- A reference may only find a concept of its target type. -/
def checkTarget (node : Node) (origin : Origin) (member : String) (target : Target)
    (found : Node) : Except Diagnostic Unit :=
  if found.type.satisfies target then .ok ()
  else .error {
    code := .referenceTypeMismatch
    message := s!"member '{member}' of '{node.key}' references '{found.key}', which is a {found.typeName} and not a {target.display}"
    location := origin.location?
    causes := s!"'{node.key}' was created by {origin.display}" }

/-- A reference by the name of its member, its target and the key it points at. -/
structure Link where
  member : String
  target : Target
  key : String
  deriving Repr, DecidableEq

def links (node : Node) : List Link :=
  node.references.map fun (m, r) => ⟨m.name, m.kind.target?.getD .any, r.key⟩

/-- Checks the links of a new concept that are answered, by itself or by the model, and gives
those that are not. -/
def openLinks (m : Model) (node : Node) (origin : Origin) :
    List Link → Except Diagnostic (List Link)
  | [] => .ok []
  | l :: ls =>
    match if l.key = node.key then some node else m.find? l.key with
    | some found => do
      checkTarget node origin l.member l.target found
      m.openLinks node origin ls
    | none => do
      let rest ← m.openLinks node origin ls
      return l :: rest

/-- Hands a new concept to the entries that wait for it, and gives those it completes. -/
def release (node : Node) : List Waiting → Array Entry → Except Diagnostic (Array Entry × List Nat)
  | [], entries => .ok (entries, [])
  | w :: ws, entries =>
    match entries[w.entry]? with
    | none => release node ws entries
    | some waiter => do
      checkTarget waiter.node waiter.origin w.member w.target node
      let left := waiter.unresolved - 1
      let (entries, resolved) ←
        release node ws (entries.setIfInBounds w.entry { waiter with unresolved := left })
      return (entries, if left = 0 then w.entry :: resolved else resolved)

def park (waiting : Std.HashMap String (Array Waiting)) (entry : Nat) (missing : List Link) :
    Std.HashMap String (Array Waiting) :=
  missing.foldl (fun waiting l =>
    waiting.alter l.key fun ws => some ((ws.getD #[]).push ⟨entry, l.member, l.target⟩)) waiting

/-- Adds a concept under a key that is not taken. -/
def add (m : Model) (node : Node) (origin : Origin) : Except Diagnostic (Insertion × Model) := do
  let key := node.key
  let all := links node
  let missing ← m.openLinks node origin all
  let { registry, entries, byKey, byType, byReference, byParent, waiting } := m
  let index := entries.size
  let waiting := park waiting index missing
  let (entries, completed) ← release node (waiting.getD key #[]).toList
    (entries.push ⟨node, origin, key, missing.length⟩)
  let resolved := if missing.isEmpty then index :: completed else completed
  return (.added index resolved, {
    registry
    entries
    byKey := byKey.insert key index
    byType := node.type.ancestors.foldl (·.push · index) byType
    byReference := (all.map Link.key).eraseDups.foldl (·.push · index) byReference
    byParent :=
      match node.parent? with
      | some parent => byParent.push parent.key index
      | none => byParent
    waiting := waiting.erase key })

/-- Adds a concept. One that is there already changes nothing, and another one under its key is
refused. -/
def insert (m : Model) (node : Node) (origin : Origin) : Except Diagnostic (Insertion × Model) :=
  match m.entry? node.key with
  | some prior =>
    if prior.node.same node then .ok (.duplicate, m)
    else .error (duplicateKey prior node origin)
  | none =>
    if !node.missing.isEmpty then .error (incomplete node origin)
    else m.add node origin

/-- The references that nothing answers, by entry and then by key. -/
def dangling (m : Model) : List (String × Waiting) :=
  let all := m.waiting.toList.flatMap fun (key, ws) => ws.toList.map fun w => (key, w)
  all.mergeSort fun (k, v) (l, w) =>
    v.entry < w.entry || (v.entry == w.entry && decide (k ≤ l))

def keyAt (m : Model) (index : Nat) : String := (m.entries[index]?.map Entry.key).getD ""

/-- Refuses a model with a reference that nothing answers. -/
def checkResolved (m : Model) : Except Diagnostic Unit :=
  let missing := m.dangling
  match missing with
  | [] => .ok ()
  | (target, first) :: _ =>
    .error {
      code := .unresolvedReference
      message := s!"member '{first.member}' of '{m.keyAt first.entry}' references '{target}', which is not defined"
      location := m.entries[first.entry]?.bind fun e => e.origin.location?
      causes := s!"{missing.length} unresolved reference(s); check the spelling or add the missing concept"
      details := missing.map fun (k, w) =>
        s!"'{m.keyAt w.entry}' member '{w.member}' references missing '{k}'" }

end Model

end ConceptScript
