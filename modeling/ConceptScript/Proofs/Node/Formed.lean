import ConceptScript.Proofs.Statement.Binding

namespace ConceptScript

theorem forall₂_set {α β : Type} {R : α → β → Prop} {as : List α} {bs : List β}
    (h : List.Forall₂ R as bs) {i : Nat} {a : α} {b : β} (ha : as[i]? = some a) (hr : R a b) :
    List.Forall₂ R as (bs.set i b) := by
  induction h generalizing i with
  | nil => exact .nil
  | cons hab hrest ih =>
    cases i with
    | zero =>
      obtain rfl := Option.some.inj ha
      exact .cons hr hrest
    | succ i => exact .cons hab (ih ha)

/-- A text without blanks and dots, as names are. -/
def Text.Unbroken (s : String) : Prop := ∀ c ∈ s.toList, c ≠ ' ' ∧ c ≠ '.'

def Value.nodes : Value → List Node
  | text _ => []
  | reference n => [n]
  | list ns => ns

namespace Node

variable {r : Registry} {n n' : Node}

/-- A concept of a type of the registry, with a slot for each member. -/
structure Shaped (r : Registry) (n : Node) : Prop where
  type_mem : n.type ∈ r.types
  slots_length : n.slots.length = n.type.members.length

/-- A value that may be set for a member. -/
structure Suits (r : Registry) (m : Member) (value : Value) : Prop where
  accepts : m.kind.accepts value = true
  shaped : ∀ n ∈ value.nodes, n.Shaped r
  unbroken : m.kind = .identifier → ∀ s, value = .text s → Text.Unbroken s

/-- A concept of a type of the registry with suitable values in its slots. -/
structure Formed (r : Registry) (n : Node) : Prop where
  type_mem : n.type ∈ r.types
  suits : List.Forall₂ (fun m v => ∀ value, v = some value → Suits r m value) n.type.members n.slots

theorem Formed.shaped (h : n.Formed r) : n.Shaped r := ⟨h.type_mem, h.suits.length_eq.symm⟩

theorem Shaped.ofType {t : ConceptType} (h : t ∈ r.types) : (ofType t).Shaped r :=
  ⟨h, by simp [Node.ofType, slots, type]⟩

theorem Formed.ofType {t : ConceptType} (h : t ∈ r.types) : (ofType t).Formed r := by
  refine ⟨h, ?_⟩
  change List.Forall₂ _ t.members (t.members.map fun _ => none)
  rw [List.forall₂_map_right_iff, List.forall₂_same]
  simp

theorem Shaped.placeholder (h : n.Shaped r) : n.placeholder.Shaped r := by
  refine ⟨h.type_mem, ?_⟩
  change (n.members.map fun _ => _).length = n.type.members.length
  rw [List.length_map, members, List.length_zip, h.slots_length, Nat.min_self]

theorem Shaped.referenceTo (h : n.Shaped r) : ∀ n' ∈ (Value.referenceTo n).nodes, n'.Shaped r := by
  intro n' hn'
  rw [List.mem_singleton.mp hn']
  exact h.placeholder

section Set

variable {i : Nat} {m : Member} {value : Value}

theorem Shaped.setAt (h : n.Shaped r) (hset : n.setAt i m value = .ok n') : n'.Shaped r := by
  obtain ⟨_, rfl⟩ := setAt_eq_ok.mp hset
  exact ⟨h.type_mem, by simpa [slots, type] using h.slots_length⟩

theorem Formed.setAt (h : n.Formed r) (hm : n.type.members[i]? = some m)
    (hset : n.setAt i m value = .ok n') (hshaped : ∀ n ∈ value.nodes, n.Shaped r)
    (hunbroken : m.kind = .identifier → ∀ s, value = .text s → Text.Unbroken s) : n'.Formed r := by
  obtain ⟨haccepts, rfl⟩ := setAt_eq_ok.mp hset
  refine ⟨h.type_mem, forall₂_set h.suits hm ?_⟩
  rintro _ ⟨⟩
  exact ⟨haccepts, hshaped, hunbroken⟩

end Set

theorem type_of_setAt {i : Nat} {m : Member} {value : Value} (h : n.setAt i m value = .ok n') :
    n'.type = n.type := by
  obtain ⟨_, rfl⟩ := setAt_eq_ok.mp h
  rfl

theorem exists_setAt_of_put {name : String} {value : Value} (h : n.put name value = .ok n') :
    ∃ m i, n.type.members[i]? = some m ∧ m.name = name ∧ n.setAt i m value = .ok n' := by
  unfold put set at h
  rw [Reader.mapError_eq_ok] at h
  split at h
  · cases h
  · next m i hfind =>
    refine ⟨m, i, ?_, ?_, h⟩
    · exact List.mk_mem_zipIdx_iff_getElem?.mp (List.mem_of_find?_eq_some hfind)
    · simpa using List.find?_some hfind

theorem Shaped.put (h : n.Shaped r) {name : String} {value : Value}
    (hput : n.put name value = .ok n') : n'.Shaped r := by
  obtain ⟨m, i, _, _, hset⟩ := exists_setAt_of_put hput
  exact h.setAt hset

theorem Formed.put (h : n.Formed r) {name : String} {value : Value}
    (hput : n.put name value = .ok n') (hshaped : ∀ n ∈ value.nodes, n.Shaped r)
    (hunbroken : ∀ s, value = .text s → Text.Unbroken s) : n'.Formed r := by
  obtain ⟨m, i, hm, _, hset⟩ := exists_setAt_of_put hput
  exact h.setAt hm hset hshaped fun _ => hunbroken

theorem exists_target_of_accepts_list {kind : MemberKind} {ns : List Node}
    (h : kind.accepts (.list ns) = true) : ∃ target, kind = .list target := by
  cases kind <;> simp_all [MemberKind.accepts]

theorem key_of_keyParts_ne_nil (h : n.keyParts ≠ []) :
    n.key = n.type.root ++ " " ++ ".".intercalate n.keyParts := by
  obtain ⟨part, parts, hparts⟩ := List.exists_cons_of_ne_nil h
  rw [key, hparts]
  rfl

theorem Shaped.exists_slot (h : n.Shaped r) {m : Member} (hm : m ∈ n.type.members) :
    ∃ v, (m, v) ∈ n.members := by
  have hfst : n.members.map Prod.fst = n.type.members :=
    List.map_fst_zip (Nat.le_of_eq h.slots_length.symm)
  rw [← hfst] at hm
  obtain ⟨⟨m', v⟩, hmem, rfl⟩ := List.mem_map.mp hm
  exact ⟨v, hmem⟩

theorem Shaped.exists_member (h : n.Shaped r) {v : Option Value} (hv : v ∈ n.slots) :
    ∃ m, (m, v) ∈ n.members := by
  have hsnd : n.members.map Prod.snd = n.slots :=
    List.map_snd_zip (Nat.le_of_eq h.slots_length)
  rw [← hsnd] at hv
  obtain ⟨⟨m, v'⟩, hmem, rfl⟩ := List.mem_map.mp hv
  exact ⟨m, hmem⟩

theorem Shaped.exists_value (h : n.Shaped r) (hmissing : n.missing = []) {m : Member}
    (hm : m ∈ n.type.members) : ∃ value, (m, some value) ∈ n.members := by
  obtain ⟨v, hv⟩ := h.exists_slot hm
  cases v with
  | some value => exact ⟨value, hv⟩
  | none =>
    have hall : ∀ p ∈ n.members, p.2 ≠ none := by
      simpa [missing, List.filter_eq_nil_iff] using hmissing
    exact absurd rfl (hall _ hv)

theorem Formed.suits_of_mem (h : n.Formed r) {m : Member} {value : Value}
    (hmem : (m, some value) ∈ n.members) : Suits r m value :=
  List.forall₂_zip h.suits hmem value rfl

theorem mem_nodes_of_mem_referencesOf {m : Member} {v : Option Value} {p : Member × Node}
    (h : p ∈ referencesOf m v) : ∃ value, v = some value ∧ p.2 ∈ value.nodes := by
  unfold referencesOf at h
  split at h
  · next n' =>
    rw [List.mem_singleton.mp h]
    exact ⟨_, rfl, List.mem_singleton_self n'⟩
  · obtain ⟨n', hn', rfl⟩ := List.mem_map.mp h
    exact ⟨_, rfl, hn'⟩
  · cases h

theorem mem_references {m : Member} {value : Value} (h : (m, some value) ∈ n.members) {n' : Node}
    (hn : n' ∈ value.nodes) : (m, n') ∈ n.references := by
  refine List.mem_flatMap.mpr ⟨(m, some value), h, ?_⟩
  cases value with
  | text s => cases hn
  | reference n'' =>
    obtain rfl := List.mem_singleton.mp hn
    exact List.mem_singleton_self _
  | list ns => exact List.mem_map_of_mem hn

theorem Formed.shaped_of_mem_references (h : n.Formed r) {p : Member × Node}
    (hp : p ∈ n.references) : p.2.Shaped r := by
  obtain ⟨⟨m, v⟩, hmem, hp⟩ := List.mem_flatMap.mp hp
  obtain ⟨value, rfl, hnode⟩ := mem_nodes_of_mem_referencesOf hp
  exact (h.suits_of_mem hmem).shaped p.2 hnode

theorem mem_members_of_get? {name : String} {value : Value} (h : n.get? name = some value) :
    ∃ m, (m, some value) ∈ n.members ∧ m.name = name := by
  unfold get? at h
  obtain ⟨⟨m, v⟩, hfind, hv⟩ := Option.bind_eq_some_iff.mp h
  obtain rfl : v = some value := hv
  exact ⟨m, List.mem_of_find?_eq_some hfind, by simpa using List.find?_some hfind⟩

theorem get?_of_members (before : List (Member × Option Value)) {k : Member} {v : Option Value}
    {after : List (Member × Option Value)} (h : n.members = before ++ (k, v) :: after)
    (hother : ∀ p ∈ before, p.1.name ≠ k.name) : n.get? k.name = v := by
  have hnone : before.find? (fun p => p.1.name == k.name) = none := by
    simpa [List.find?_eq_none] using hother
  rw [get?, h, List.find?_append, hnone]
  simp

theorem get?_of_text? {name s : String} (h : n.text? name = some s) :
    n.get? name = some (.text s) := by
  unfold text? at h
  split at h
  · next hget =>
    obtain rfl := Option.some.inj h
    exact hget
  · cases h

theorem get?_of_reference? {name : String} {n' : Node} (h : n.reference? name = some n') :
    n.get? name = some (.reference n') := by
  unfold reference? at h
  split at h
  · next hget =>
    obtain rfl := Option.some.inj h
    exact hget
  · cases h

theorem mem_keyParts_of_text {m : Member} {s : String} (h : (m, some (.text s)) ∈ n.members)
    (hm : m.isKey = true) : s ∈ n.keyParts := by
  rw [keyParts_eq]
  unfold members at h
  generalize n.type.members = ms, n.slots = vs at h
  induction ms generalizing vs with
  | nil => simp at h
  | cons m' ms ih =>
    cases vs with
    | nil => simp at h
    | cons v vs =>
      rw [slotParts, List.mem_append]
      rcases List.mem_cons.mp h with he | h
      · obtain ⟨rfl, rfl⟩ := Prod.mk.inj he
        exact .inl (by simp [hm, valueParts])
      · exact .inr (ih vs h)

theorem mem_members_of_parent? {owner : Node} (h : n.parent? = some owner) :
    ∃ m, n.type.parent? = some m ∧ (m, some (.reference owner)) ∈ n.members := by
  unfold parent? at h
  split at h
  · next m _ hm hslot =>
    obtain rfl := Option.some.inj h
    refine ⟨m, hm, ?_⟩
    obtain ⟨hhead, _⟩ := Option.filter_eq_some_iff.mp hm
    obtain ⟨ms, hms⟩ := List.head?_eq_some_iff.mp hhead
    obtain ⟨vs, hvs⟩ := List.head?_eq_some_iff.mp hslot
    rw [members, hms, hvs]
    exact List.mem_cons_self
  · cases h

end Node

end ConceptScript
