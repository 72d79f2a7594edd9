import ConceptScript.Node
import ConceptScript.Proofs.Registry.Identity
import ConceptScript.Proofs.Text.Delimited

namespace ConceptScript

namespace Node

mutual

/-- The concept is of a type of the registry, and the members of its key are set, at every level
and with plain names. -/
def keyed (r : Registry) : Node → Bool
  | mk type slots => r.types.contains type && slotsKeyed r type.members slots

def slotsKeyed (r : Registry) : List Member → List (Option Value) → Bool
  | [], _ => true
  | m :: ms, v :: vs => (!m.isKey || valueKeyed r m.kind v) && slotsKeyed r ms vs
  | _ :: _, [] => false

def valueKeyed (r : Registry) (kind : MemberKind) : Option Value → Bool
  | none => false
  | some (.text s) => kind.accepts (.text s) && Text.isPlain s
  | some (.reference n) => kind.accepts (.reference n) && keyed r n
  | some (.list ns) => kind.accepts (.list ns) && listKeyed r ns

def listKeyed (r : Registry) : List Node → Bool
  | [] => true
  | n :: ns => keyed r n && listKeyed r ns

end

theorem keyParts_eq (n : Node) : n.keyParts = slotParts n.type.members n.slots := by
  cases n with
  | mk type slots => rfl

theorem keyed_iff {r : Registry} {n : Node} :
    n.keyed r = true ↔ n.type ∈ r.types ∧ slotsKeyed r n.type.members n.slots = true := by
  cases n with
  | mk type slots => simp [keyed, Node.type, Node.slots]

theorem listKeyed_iff {r : Registry} {ns : List Node} :
    listKeyed r ns = true ↔ ∀ n ∈ ns, n.keyed r = true := by
  induction ns with
  | nil => simp [listKeyed]
  | cons n ns ih => simp [listKeyed, ih]

theorem listParts_eq (ns : List Node) :
    listParts ns = ns.map fun n => ".".intercalate n.keyParts := by
  induction ns with
  | nil => rfl
  | cons n ns ih => exact congrArg (".".intercalate n.keyParts :: ·) ih

theorem slotParts_nil_right (ms : List Member) : slotParts ms [] = [] := by
  cases ms <;> rfl

theorem slotParts_cons_cons (m : Member) (ms : List Member) (v : Option Value)
    (vs : List (Option Value)) : slotParts (m :: ms) (v :: vs) =
      (if m.isKey then valueParts v else []) ++ slotParts ms vs :=
  rfl

theorem slotParts_cons {m : Member} {ms : List Member} {v : Option Value}
    {vs : List (Option Value)} (h : m.isKey = true) :
    slotParts (m :: ms) (v :: vs) = valueParts v ++ slotParts ms vs := by
  rw [slotParts_cons_cons, if_pos h]

theorem slotParts_cons_of_not_key {m : Member} {ms : List Member} {v : Option Value}
    {vs : List (Option Value)} (h : m.isKey = false) :
    slotParts (m :: ms) (v :: vs) = slotParts ms vs := by
  rw [slotParts_cons_cons, h]
  rfl

theorem slotParts_append {own : List Member} (h : ∀ m ∈ own, m.isKey = false) (ms : List Member)
    (vs : List (Option Value)) : slotParts (ms ++ own) vs = slotParts ms vs := by
  induction ms generalizing vs with
  | nil =>
    rw [List.nil_append]
    induction own generalizing vs with
    | nil => rfl
    | cons m own ih =>
      cases vs with
      | nil => rw [slotParts_nil_right, slotParts_nil_right]
      | cons v vs =>
        rw [slotParts_cons_of_not_key (h m List.mem_cons_self),
          ih (fun m' hm' => h m' (List.mem_cons_of_mem m hm')) vs]
        cases vs <;> rfl
  | cons m ms ih =>
    cases vs with
    | nil => rw [slotParts_nil_right, slotParts_nil_right]
    | cons v vs => rw [List.cons_append, slotParts_cons_cons, slotParts_cons_cons, ih]

theorem slotsKeyed_cons {r : Registry} {m : Member} {ms : List Member}
    {vs : List (Option Value)} :
    slotsKeyed r (m :: ms) vs = true ↔ ∃ v vs', vs = v :: vs' ∧
      (m.isKey = true → valueKeyed r m.kind v = true) ∧ slotsKeyed r ms vs' = true := by
  cases vs with
  | nil => simp [slotsKeyed]
  | cons v vs =>
    cases hm : m.isKey <;> simp [slotsKeyed, hm]

section Cons

variable {r : Registry} {m : Member} {ms : List Member} {v : Option Value}
  {vs : List (Option Value)}

theorem slotsKeyed_head (hk : m.isKey = true) (h : slotsKeyed r (m :: ms) (v :: vs) = true) :
    valueKeyed r m.kind v = true := by
  obtain ⟨_, _, hvs, hv, _⟩ := slotsKeyed_cons.mp h
  cases hvs
  exact hv hk

theorem slotsKeyed_tail (h : slotsKeyed r (m :: ms) (v :: vs) = true) :
    slotsKeyed r ms vs = true := by
  obtain ⟨_, _, hvs, _, htail⟩ := slotsKeyed_cons.mp h
  cases hvs
  exact htail

end Cons

theorem slotsKeyed_of_append {r : Registry} {ms own : List Member} {vs : List (Option Value)}
    (h : slotsKeyed r (ms ++ own) vs = true) : slotsKeyed r ms vs = true := by
  induction ms generalizing vs with
  | nil => cases vs <;> rfl
  | cons m ms ih =>
    obtain ⟨v, vs, rfl, hv, hvs⟩ := slotsKeyed_cons.mp h
    exact slotsKeyed_cons.mpr ⟨v, vs, rfl, hv, ih hvs⟩

theorem exists_text_of_accepts {kind : MemberKind} {value : Value} (hk : kind.target? = none)
    (h : kind.accepts value = true) : ∃ s, value = .text s := by
  cases kind <;> cases value <;> simp_all [MemberKind.accepts, MemberKind.target?]

theorem exists_reference_of_accepts {target : Target} {value : Value}
    (h : (MemberKind.reference target).accepts value = true) :
    ∃ n, value = .reference n ∧ n.type.satisfies target = true := by
  cases value <;> simp_all [MemberKind.accepts]

theorem exists_list_of_accepts {target : Target} {value : Value}
    (h : (MemberKind.list target).accepts value = true) :
    ∃ ns, value = .list ns ∧ ∀ n ∈ ns, n.type.satisfies target = true := by
  cases value <;> simp_all [MemberKind.accepts]

section Value

variable {r : Registry} {kind : MemberKind} {v : Option Value}

theorem exists_accepts_of_valueKeyed (h : valueKeyed r kind v = true) :
    ∃ w, v = some w ∧ kind.accepts w = true := by
  rcases v with _ | (s | n | ns)
  · exact absurd h Bool.false_ne_true
  · exact ⟨_, rfl, (Bool.and_eq_true_iff.mp h).1⟩
  · exact ⟨_, rfl, (Bool.and_eq_true_iff.mp h).1⟩
  · exact ⟨_, rfl, (Bool.and_eq_true_iff.mp h).1⟩

theorem exists_text_of_valueKeyed (hk : kind.target? = none) (h : valueKeyed r kind v = true) :
    ∃ s, v = some (.text s) ∧ Text.isPlain s = true := by
  obtain ⟨w, rfl, haccepts⟩ := exists_accepts_of_valueKeyed h
  obtain ⟨s, rfl⟩ := exists_text_of_accepts hk haccepts
  exact ⟨s, rfl, (Bool.and_eq_true_iff.mp h).2⟩

theorem exists_reference_of_valueKeyed {target : Target}
    (h : valueKeyed r (.reference target) v = true) :
    ∃ n, v = some (.reference n) ∧ n.type.satisfies target = true ∧ n.keyed r = true := by
  obtain ⟨w, rfl, haccepts⟩ := exists_accepts_of_valueKeyed h
  obtain ⟨n, rfl, hn⟩ := exists_reference_of_accepts haccepts
  exact ⟨n, rfl, hn, (Bool.and_eq_true_iff.mp h).2⟩

theorem keyed_of_valueKeyed {n : Node} (h : valueKeyed r kind (some (.reference n)) = true) :
    n.keyed r = true :=
  (Bool.and_eq_true_iff.mp h).2

theorem exists_list_of_valueKeyed {target : Target} (h : valueKeyed r (.list target) v = true) :
    ∃ ns, v = some (.list ns) ∧
      ∀ n ∈ ns, n.type.satisfies target = true ∧ n.keyed r = true := by
  obtain ⟨w, rfl, haccepts⟩ := exists_accepts_of_valueKeyed h
  obtain ⟨ns, rfl, hns⟩ := exists_list_of_accepts haccepts
  have hkeyed := listKeyed_iff.mp (Bool.and_eq_true_iff.mp h).2
  exact ⟨ns, rfl, fun n hn => ⟨hns n hn, hkeyed n hn⟩⟩

end Value

end Node

namespace Registry

/-- The members make a key of a fixed number of names, those of referenced concepts included. -/
inductive Names (r : Registry) : List Member → Nat → Prop
  | nil : Names r [] 0
  | other {m : Member} {ms : List Member} {n : Nat} :
    m.isKey = false → Names r ms n → Names r (m :: ms) n
  | name {m : Member} {ms : List Member} {n : Nat} :
    m.kind.target? = none → m.isKey = true → Names r ms n → Names r (m :: ms) (n + 1)
  | reference {m : Member} {ms : List Member} {n k : Nat} {u : ConceptType} :
    m.kind = .reference (.concept u.name) → m.isKey = true → u ∈ r.types →
    u.isInterface = false → Names r u.members k → Names r ms n → Names r (m :: ms) (k + n)

/-- Each member of the key is a name, refers to a type that is no interface and has such a key
itself, or lists a type that goes by one name or more. -/
inductive Closed (r : Registry) : List Member → Prop
  | nil : Closed r []
  | other {m : Member} {ms : List Member} : m.isKey = false → Closed r ms → Closed r (m :: ms)
  | name {m : Member} {ms : List Member} :
    m.kind.target? = none → m.isKey = true → Closed r ms → Closed r (m :: ms)
  | reference {m : Member} {ms : List Member} {u : ConceptType} :
    m.kind = .reference (.concept u.name) → m.isKey = true → u ∈ r.types →
    u.isInterface = false → Closed r u.members → Closed r ms → Closed r (m :: ms)
  | list {m : Member} {ms : List Member} {n : Nat} {u : ConceptType} :
    m.kind = .list (.concept u.name) → m.isKey = true → u ∈ r.types →
    u.isInterface = false → Names r u.members (n + 1) → Closed r ms → Closed r (m :: ms)

/-- What is referred to has one root: that of a type which is no interface. -/
def Fixes (r : Registry) (kind : MemberKind) : Prop :=
  ∃ u ∈ r.types, u.isInterface = false ∧ kind = .reference (.concept u.name)

/-- Wherever a reference in the key may lead to concepts of several roots, the slots of two
concepts lead to one root. What they list goes by names alone. -/
inductive Alike (r : Registry) : List Member → List (Option Value) → List (Option Value) → Prop
  | nil (vs ws : List (Option Value)) : Alike r [] vs ws
  | other {m : Member} {ms : List Member} {v w : Option Value} {vs ws : List (Option Value)} :
    m.isKey = false → Alike r ms vs ws → Alike r (m :: ms) (v :: vs) (w :: ws)
  | name {m : Member} {ms : List Member} {v w : Option Value} {vs ws : List (Option Value)} :
    m.kind.target? = none → m.isKey = true → Alike r ms vs ws →
    Alike r (m :: ms) (v :: vs) (w :: ws)
  | reference {m : Member} {ms : List Member} {n n' : Node} {vs ws : List (Option Value)}
    {u : ConceptType} :
    m.isKey = true → r.Fixes m.kind ∨ n.type.root = n'.type.root → u ∈ r.types →
    u.name = n.type.root → Alike r u.members n.slots n'.slots → Alike r ms vs ws →
    Alike r (m :: ms) (some (.reference n) :: vs) (some (.reference n') :: ws)
  | list {m : Member} {ms : List Member} {v w : Option Value} {vs ws : List (Option Value)}
    {k : Nat} {u : ConceptType} :
    m.kind = .list (.concept u.name) → m.isKey = true → u ∈ r.types →
    u.isInterface = false → Names r u.members (k + 1) → Alike r ms vs ws →
    Alike r (m :: ms) (v :: vs) (w :: ws)

theorem Alike.of_append {r : Registry} {ms own : List Member} {vs ws : List (Option Value)}
    (h : r.Alike (ms ++ own) vs ws) : r.Alike ms vs ws := by
  induction ms generalizing vs ws with
  | nil => exact .nil vs ws
  | cons m ms ih =>
    cases h with
    | other hk h => exact .other hk (ih h)
    | name ht hk h => exact .name ht hk (ih h)
    | reference hk hf hu hn ha h => exact .reference hk hf hu hn ha (ih h)
    | list ht hk hu hi hn h => exact .list ht hk hu hi hn (ih h)

end Registry

end ConceptScript
