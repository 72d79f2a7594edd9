import ConceptScript.Registry

namespace ConceptScript.Registry

/-- Why declarations do not make a registry. -/
inductive Fault where
  | declaredTwice (name : String)
  | interfaceBody (name : String)
  | inheritanceCycle (path : List String)
  | unknownBase (name base : String)
  | extendsInterface (name base : String)
  | ownIdentity (name base : String)
  | memberTwice (member owner : String)
  | lateParent (member owner : String)
  | notAnInterface (name implemented : String)
  | unknownInterface (name implemented : String)
  | unknownTarget (member owner target : String)
  | keyCycle (path : List String)
  deriving Repr, DecidableEq

namespace Fault

def message : Fault → String
  | declaredTwice name => s!"concept type '{name}' is declared twice"
  | interfaceBody name => s!"interface '{name}' cannot declare members, a keyword or a base type"
  | inheritanceCycle path => "concept type inheritance cycle: " ++ " → ".intercalate path
  | unknownBase name base => s!"'{name}' extends unknown concept type '{base}'"
  | extendsInterface name base => s!"'{name}' extends interface '{base}'; use implements instead"
  | ownIdentity name base =>
    s!"'{name}' extends '{base}' and cannot declare key or parent members of its own"
  | memberTwice member owner => s!"member '{member}' is declared twice on '{owner}'"
  | lateParent member owner => s!"parent member '{member}' of '{owner}' must be the first member"
  | notAnInterface name implemented =>
    s!"'{name}' implements '{implemented}', which is not an interface"
  | unknownInterface name implemented => s!"'{name}' implements unknown interface '{implemented}'"
  | unknownTarget member owner target =>
    s!"member '{member}' of '{owner}' references unknown concept type '{target}'"
  | keyCycle path => "key members reference each other in a cycle: " ++ " → ".intercalate path

def toDiagnostic (f : Fault) : Diagnostic := { code := .invalidRegistry, message := f.message }

end Fault

def checkDeclarations (seen : List String) : List Declaration → Except Fault Unit
  | [] => .ok ()
  | d :: ds =>
    if seen.contains d.name then .error (.declaredTwice d.name)
    else if d.isInterface && (!d.members.isEmpty || d.keyword?.isSome || d.base?.isSome) then
      .error (.interfaceBody d.name)
    else checkDeclarations (d.name :: seen) ds

/-- Names are different and a parent member comes first. -/
def checkMembers (owner : String) (seen : List String) : List Member → Except Fault Unit
  | [] => .ok ()
  | m :: ms =>
    if seen.contains m.name then .error (.memberTwice m.name owner)
    else if m.isParent && !seen.isEmpty then .error (.lateParent m.name owner)
    else checkMembers owner (m.name :: seen) ms

/-- Adds the interfaces of a type to its ancestors. -/
def implement (declared : List Declaration) (name : String) (ancestors : List String) :
    List String → Except Fault (List String)
  | [] => .ok ancestors
  | i :: is =>
    match declared.find? fun d => d.name == i with
    | none => .error (.unknownInterface name i)
    | some d =>
      if !d.isInterface then .error (.notAnInterface name i)
      else implement declared name (if ancestors.contains i then ancestors else ancestors ++ [i]) is

/-- What is left of a pool once all that goes by a name is taken out. -/
def without {α : Type} (nameOf : α → String) (pool : List α) (name : String) : List α :=
  pool.filter fun a => nameOf a != name

theorem length_without_lt {α : Type} {nameOf : α → String} {pool : List α} {name : String} {a : α}
    (h : pool.find? (fun a => nameOf a == name) = some a) :
    (without nameOf pool name).length < pool.length := by
  have hm := List.mem_of_find?_eq_some h
  have hn : nameOf a = name := by simpa using List.find?_some h
  have hs : (without nameOf pool name).Sublist pool := List.filter_sublist
  refine Nat.lt_of_le_of_ne hs.length_le fun he => ?_
  rw [← hs.eq_of_length he] at hm
  simp [without, hn] at hm

/-- The items of a pool and all that is in them. -/
def load {α : Type} (size : α → Nat) : List α → Nat
  | [] => 0
  | a :: pool => size a + 1 + load size pool

theorem load_without_le {α : Type} (nameOf : α → String) (size : α → Nat) (pool : List α)
    (name : String) : load size (without nameOf pool name) ≤ load size pool := by
  induction pool with
  | nil => exact Nat.le_refl _
  | cons b pool ih =>
    rw [without, List.filter_cons]
    split
    · exact Nat.add_le_add_left ih _
    · exact Nat.le_trans ih (Nat.le_add_left _ _)

theorem load_without_lt {α : Type} {nameOf : α → String} (size : α → Nat) {pool : List α}
    {name : String} {a : α} (h : pool.find? (fun a => nameOf a == name) = some a) :
    load size (without nameOf pool name) + size a < load size pool := by
  induction pool with
  | nil => simp at h
  | cons b pool ih =>
    have hle := load_without_le nameOf size pool name
    rw [without] at hle ih ⊢
    rw [List.find?_cons] at h
    rw [List.filter_cons]
    cases hb : nameOf b == name with
    | true =>
      obtain rfl : b = a := by simpa [hb] using h
      rw [if_neg (by simpa using hb), load]
      omega
    | false =>
      rw [if_pos (by simpa using hb), load, load]
      have := ih (by simpa [hb] using h)
      omega

/-- What a declaration makes of what it inherits. -/
def extend (declared : List Declaration) (d : Declaration) (inherited : List Member)
    (root : String) (ancestors : List String) : Except Fault Shape := do
  checkMembers d.name [] (inherited ++ d.members)
  let ancestors ← implement declared d.name ancestors d.interfaces
  return {
    name := d.name, keyword? := d.keyword?, isInterface := d.isInterface,
    deprecation? := d.deprecation?, members := inherited ++ d.members, root, ancestors }

/-- What a declaration makes of the shape of its base. -/
def extendBase (declared : List Declaration) (d base : Declaration) (shape : Shape) :
    Except Fault Shape :=
  if base.isInterface then .error (.extendsInterface d.name base.name)
  else if d.members.any fun m => m.isKey || m.isParent then .error (.ownIdentity d.name base.name)
  else extend declared d shape.members shape.root (d.name :: shape.ancestors)

/-- The shape of a declaration, its bases first, and the shapes that are resolved by then. The path
holds the names from the first type asked for down to this one, and the pool the declarations that
are not on it. -/
def resolve (declared : List Declaration) (path : List String) (pool : List Declaration)
    (resolved : List Shape) (d : Declaration) : Except Fault (Shape × List Shape) :=
  match resolved.find? fun s => s.name == d.name with
  | some s => .ok (s, resolved)
  | none =>
    match d.base? with
    | none => do
      let s ← extend declared d [] d.name [d.name]
      return (s, s :: resolved)
    | some b =>
      match _h : pool.find? fun e => e.name == b with
      | none =>
        if path.contains b then .error (.inheritanceCycle (path ++ [b]))
        else .error (.unknownBase d.name b)
      | some base => do
        let (shape, resolved) ←
          resolve declared (path ++ [b]) (without Declaration.name pool b) resolved base
        let s ← extendBase declared d base shape
        return (s, s :: resolved)
termination_by pool.length
decreasing_by exact length_without_lt _h

/-- The shapes of declarations, in their order. -/
def resolveAll (declared : List Declaration) (resolved : List Shape) :
    List Declaration → Except Fault (List Shape)
  | [] => .ok []
  | d :: ds => do
    let (s, resolved) ←
      resolve declared [d.name] (without Declaration.name declared d.name) resolved d
    let shapes ← resolveAll declared resolved ds
    return s :: shapes

/-- The concept target of a member, if it is not among the shapes. -/
def danglingTarget? (shapes : List Shape) (m : Member) : Option String :=
  match m.kind.target? with
  | some (.concept name) => if shapes.any fun s => s.name == name then none else some name
  | _ => none

def checkTargets (shapes : List Shape) : List (Shape × Member) → Except Fault Unit
  | [] => .ok ()
  | (s, m) :: rest =>
    match danglingTarget? shapes m with
    | some target => .error (.unknownTarget m.name s.name target)
    | none => checkTargets shapes rest

/-- The shapes of declarations that are in order. -/
def shapesOf (declared : List Declaration) : Except Fault (List Shape) := do
  checkDeclarations [] declared
  let shapes ← resolveAll declared [] declared
  checkTargets shapes (shapes.flatMap fun s => s.members.map fun m => (s, m))
  return shapes

/-- How many values a machine word of 64 bits has. -/
def wordSize : Nat := 18446744073709551616

/-- How numbers are added that have to fit into a word, and what a fault is among the failures of
that. -/
structure Addition (ε : Type) where
  add : Nat → Nat → Except ε Nat
  fault : Fault → ε

/-- Why a build comes to an end where sums are checked. -/
inductive Halt where
  | fault (fault : Fault)
  | overflow
  deriving Repr, DecidableEq

namespace Addition

/-- A sum that does not fit starts again at zero. -/
def wrapping : Addition Fault where
  add a b := .ok ((a + b) % wordSize)
  fault := id

/-- A sum that does not fit puts an end to the build. -/
def checked : Addition Halt where
  add a b := if a + b < wordSize then .ok (a + b) else .error .overflow
  fault := .fault

end Addition

section Arity

variable {ε : Type} (addition : Addition ε)

def addArity : Option Nat → Option Nat → Except ε (Option Nat)
  | some a, some b => do
    let sum ← addition.add a b
    return some sum
  | _, _ => .ok none

/-- How many names a written reference to a type has, for the types where that is known. The arity
of a type that cannot be written is known too. -/
abbrev Arities := List (String × Option Nat)

mutual

/-- The arity of a type, and what is known by then. The path holds the names from the first type
asked for down to the one with this type in its key, and the pool the shapes that are not on it. -/
def arityOf (path : List String) (pool : List Shape) (known : Arities) (name : String) :
    Except ε (Option Nat × Arities) :=
  match known.lookup name with
  | some arity => .ok (arity, known)
  | none =>
    match _h : pool.find? fun s => s.name == name with
    | none => .error (addition.fault (.keyCycle (path ++ [name])))
    | some s =>
      if s.isInterface then .ok (none, (name, none) :: known)
      else do
        let (arity, known) ←
          sumKeys (path ++ [name]) (without Shape.name pool name) known (some 0) s.keys
        return (arity, (name, arity) :: known)
termination_by load (fun s => s.keys.length) pool
decreasing_by exact load_without_lt _ _h

/-- Adds to a total what the members of a key take. -/
def sumKeys (path : List String) (pool : List Shape) (known : Arities) (total : Option Nat) :
    List Member → Except ε (Option Nat × Arities)
  | [] => .ok (total, known)
  | m :: ms => do
    let (part, known) ← (match m.kind with
      | .identifier => .ok (some 1, known)
      | .text => .ok (some 1, known)
      | .reference (.concept name) => arityOf path pool known name
      | .reference .any => .ok (none, known)
      | .list _ => .ok (none, known))
    let total ← addArity addition total part
    sumKeys path pool known total ms
termination_by ms => load (fun s => s.keys.length) pool + ms.length
decreasing_by all_goals simp

end

/-- The arities of shapes, in their order. -/
def aritiesOf (shapes : List Shape) : Except ε Arities :=
  shapes.foldlM (fun known s => do
    let (_, known) ← arityOf addition [] shapes known s.name
    return known) []

end Arity

/-- The nesting of a shape whose chain so far is outside of the pool. -/
def nestingIn (pool : List Shape) (s : Shape) : Nesting :=
  match s.parent? with
  | none => ⟨true, 0⟩
  | some p =>
    match p.kind.target? with
    | some (.concept name) =>
      match _h : pool.find? fun t => t.name == name with
      | none => ⟨true, 1⟩
      | some t =>
        if t.isInterface then ⟨false, 0⟩
        else
          let outer := nestingIn (without Shape.name pool name) t
          ⟨outer.concrete, outer.depth + 1⟩
    | _ => ⟨false, 0⟩
termination_by pool.length
decreasing_by exact length_without_lt _h

def nestingOf (shapes : List Shape) (s : Shape) : Nesting :=
  nestingIn (without Shape.name shapes s.name) s

def complete (shapes : List Shape) (known : Arities) (s : Shape) : ConceptType where
  toShape := s
  arity? := (known.lookup s.name).join
  nesting := nestingOf shapes s

/-- The registry of a list of declarations, with arities that are added up in some way. -/
def buildWith {ε : Type} (addition : Addition ε) (declared : List Declaration) :
    Except ε Registry := do
  let shapes ← (shapesOf declared).mapError addition.fault
  let known ← aritiesOf addition shapes
  return ⟨shapes.map (complete shapes known)⟩

/-- The registry of a list of declarations. -/
def build : List Declaration → Except Fault Registry := buildWith .wrapping

end ConceptScript.Registry
