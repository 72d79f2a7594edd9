import ConceptScript.Proofs.Node.Keyed
import ConceptScript.Proofs.Registry.Width
import ConceptScript.Proofs.Statement.Binding

namespace ConceptScript

section KeySlots

variable (pool : List ConceptType) (owner : String) {m : Member} (ms : List Member)
  (parts : List String)

theorem keySlots_other (hk : m.isKey = false) :
    keySlots pool owner (m :: ms) parts = (do
      let rest ← keySlots pool owner ms parts
      return none :: rest) := by
  rw [keySlots.eq_def]
  simp [hk]

theorem keySlots_name (hk : m.isKey = true) (hm : m.kind.target? = none) :
    keySlots pool owner (m :: ms) parts =
      match parts with
      | [] => .error (.tooFewParts owner)
      | part :: parts => do
        let rest ← keySlots pool owner ms parts
        return some (.text part) :: rest := by
  rw [keySlots.eq_def]
  dsimp only
  rw [if_neg (by simp [hk])]
  split
  · next hkind => simp [hkind, MemberKind.target?] at hm
  · next hkind => simp [hkind, MemberKind.target?] at hm
  · next hkind => simp [hkind, MemberKind.target?] at hm
  · rfl

theorem keySlots_reference (hk : m.isKey = true) {name : String}
    (hm : m.kind = .reference (.concept name)) :
    keySlots pool owner (m :: ms) parts =
      match pool.find? fun t => t.name == name with
      | none => .error (.unknownType name)
      | some inner =>
        match inner.arity? with
        | none => .error (.unnameable inner.name)
        | some n =>
          if parts.length < n then .error (.tooFewParts owner)
          else do
            let slots ← keySlots (Registry.without (fun t => t.name) pool name) inner.name
              inner.members (parts.take n)
            let rest ← keySlots pool owner ms (parts.drop n)
            return some (.reference (.mk inner slots)) :: rest := by
  rw [keySlots.eq_def]
  dsimp only
  rw [if_neg (by simp [hk])]
  split
  · next name' hm' =>
    obtain rfl : name = name' := by simpa [hm] using hm'
    split
    · next hf => rw [hf]
    · next inner hf =>
      cases hn : inner.arity? with
      | none => simp only [hf, hn]
      | some n => simp only [hf, hn]
  all_goals simp_all

/-- What a member takes off the parts of a dotted name, with what it makes of them. -/
inductive Fills (pool : List ConceptType) (m : Member) :
    List String → Option Value → List String → Prop
  | other {parts : List String} : m.isKey = false → Fills pool m parts none parts
  | name {part : String} {parts : List String} : m.isKey = true → m.kind.target? = none →
    Fills pool m (part :: parts) (some (.text part)) parts
  | reference {inner : ConceptType} {n : Nat} {parts : List String} {slots : List (Option Value)} :
    m.isKey = true → m.kind = .reference (.concept inner.name) →
    pool.find? (fun t => t.name == inner.name) = some inner → inner.arity? = some n →
    keySlots (Registry.without (fun t => t.name) pool inner.name) inner.name inner.members
      (parts.take n) = .ok slots →
    Fills pool m parts (some (.reference (.mk inner slots))) (parts.drop n)

theorem keySlots_cons_eq_ok {slots : List (Option Value)}
    (h : keySlots pool owner (m :: ms) parts = .ok slots) :
    ∃ v left rest, Fills pool m parts v left ∧ keySlots pool owner ms left = .ok rest ∧
      slots = v :: rest := by
  have hrest {v : Option Value} {left : List String} (hv : Fills pool m parts v left)
      (h : (do
        let rest ← keySlots pool owner ms left
        return v :: rest) = .ok slots) :
      ∃ v left rest, Fills pool m parts v left ∧ keySlots pool owner ms left = .ok rest ∧
        slots = v :: rest := by
    obtain ⟨rest, hrest, hslots⟩ := bind_eq_ok.mp h
    exact ⟨v, left, rest, hv, hrest, (pure_eq_ok.mp hslots).symm⟩
  cases hk : m.isKey with
  | false =>
    rw [keySlots_other pool owner ms parts hk] at h
    exact hrest (.other hk) h
  | true =>
    have hname (hm : m.kind.target? = none) :
        ∃ v left rest, Fills pool m parts v left ∧ keySlots pool owner ms left = .ok rest ∧
          slots = v :: rest := by
      rw [keySlots_name pool owner ms parts hk hm] at h
      cases parts with
      | nil => cases h
      | cons part parts => exact hrest (.name hk hm) h
    cases hm : m.kind with
    | identifier => exact hname (by rw [hm]; rfl)
    | text => exact hname (by rw [hm]; rfl)
    | list target => simp [keySlots.eq_def, hk, hm] at h
    | reference target =>
      cases target with
      | any => simp [keySlots.eq_def, hk, hm] at h
      | concept name =>
        rw [keySlots_reference pool owner ms parts hk hm] at h
        split at h
        · cases h
        · next inner hf =>
          obtain rfl : inner.name = name := by simpa using List.find?_some hf
          split at h
          · cases h
          · next n hn =>
            split at h
            · cases h
            · obtain ⟨slots', hslots', h⟩ := bind_eq_ok.mp h
              exact hrest (.reference hk hm hf hn hslots') h

end KeySlots

namespace Registry

theorem Names.append {r : Registry} {ms own : List Member} {n : Nat} (h : r.Names ms n)
    (hown : ∀ m ∈ own, m.isKey = false) : r.Names (ms ++ own) n := by
  rw [← names_keys] at h ⊢
  have hnone : own.filter Member.isKey = [] := List.filter_eq_nil_iff.mpr (by simpa using hown)
  rwa [List.filter_append, hnone, List.append_nil]

/-- All types whose arity is known are in the pool. -/
def Offers (r : Registry) (known : Arities) (pool : List ConceptType) : Prop :=
  ∀ u ∈ r.types, (known.lookup u.name).isSome = true →
    pool.find? (fun t => t.name == u.name) = some u

theorem Offers.without {r : Registry} {pool : List ConceptType} {known before : Arities}
    (h : r.Offers known pool) (hkeeps : Keeps before known) {name : String}
    (hnone : before.lookup name = none) :
    r.Offers before (without (fun t => t.name) pool name) := by
  intro u hu hl
  obtain ⟨a, ha⟩ := Option.isSome_iff_exists.mp hl
  have hne : u.name ≠ name := by
    intro hname
    simp [hname, hnone] at ha
  rw [find?_without pool hne]
  exact h u hu (by rw [hkeeps u.name a ha]; rfl)

/-- The slots hold values for the members of the key, and so do those of the concepts that these
refer to. -/
inductive KeysBound (r : Registry) : List Member → List (Option Value) → Prop
  | nil (vs : List (Option Value)) : KeysBound r [] vs
  | other {m : Member} {ms : List Member} {v : Option Value} {vs : List (Option Value)} :
    m.isKey = false → KeysBound r ms vs → KeysBound r (m :: ms) (v :: vs)
  | key {m : Member} {ms : List Member} {v : Option Value} {vs : List (Option Value)} :
    m.isKey = true → Node.Bound m v →
    (∀ n, v = some (.reference n) → n.type ∈ r.types) →
    (∀ n, v = some (.reference n) → KeysBound r n.type.members n.slots) →
    KeysBound r ms vs → KeysBound r (m :: ms) (v :: vs)

section Built

variable {declared : List Declaration} {r : Registry} (h : build declared = .ok r)
include h

theorem isA_self {t : ConceptType} (ht : t ∈ r.types) : t.isA t.name = true := by
  obtain ⟨d, _, hi⟩ := inherits_of_mem_types h ht
  have hmem : t.name ∈ t.ancestors := by
    cases hi with
    | root _ _ _ ha hn _ _ => exact (implement_eq_ok ha).2.1.subset (by simp [hn])
    | derived _ _ _ _ _ _ _ ha hn _ _ => exact (implement_eq_ok ha).2.1.subset (by simp [hn])
  simpa [ConceptType.isA] using hmem

theorem isParent_of_mem_tail {t : ConceptType} (ht : t ∈ r.types) {first : Member}
    {ms : List Member} (hms : t.members = first :: ms) : ∀ m ∈ ms, m.isParent = false := by
  obtain ⟨d, _, hi⟩ := inherits_of_mem_types h ht
  have htail := (checkMembers_eq_ok_iff.mp hi.members_checked).2
  rwa [hms] at htail

theorem find?_of_mem {t : ConceptType} (ht : t ∈ r.types) :
    r.types.find? (fun u => u.name == t.name) = some t :=
  (find?_eq_some_iff (names_nodup_of_build h)).mpr ⟨ht, rfl⟩

theorem isInterface_of_arity {t : ConceptType} (ht : t ∈ r.types) {n : Nat}
    (hn : t.arity? = some n) : t.isInterface = false :=
  ((arity_eq_some_iff h ht).mp hn).1

theorem lt_wordSize_of_arity {t : ConceptType} (ht : t ∈ r.types) {n : Nat}
    (hn : t.arity? = some n) : n < wordSize := by
  obtain ⟨_, k, _, rfl⟩ := (arity_eq_some_iff h ht).mp hn
  exact Nat.mod_lt k (Nat.two_pow_pos 64)

/-- Where every type that is settled can be found, as many parts as a key has names make up its
slots. -/
theorem exists_keySlots {ms : List Member} {n : Nat} (hn : r.Names ms n) (hfits : n < wordSize)
    {known : Arities} (hsettled : Settled .wrapping (r.types.map ConceptType.toShape) known)
    (hknown : ∀ m ∈ ms, m.isKey = true → ∀ name, m.kind = .reference (.concept name) →
      (known.lookup name).isSome = true) {pool : List ConceptType} (hpool : r.Offers known pool)
    (owner : String) {parts : List String} (hlen : parts.length = n) :
    ∃ slots, keySlots pool owner ms parts = .ok slots ∧ Node.slotParts ms slots = parts := by
  induction hn generalizing known pool owner parts with
  | nil =>
    obtain rfl := List.length_eq_zero_iff.mp hlen
    exact ⟨[], by rw [keySlots], by simp [Node.slotParts]⟩
  | other hm _ ih =>
    rw [List.forall_mem_cons] at hknown
    obtain ⟨slots, hslots, hparts⟩ := ih hfits hsettled hknown.2 hpool owner hlen
    refine ⟨none :: slots, by rw [keySlots_other _ _ _ _ hm, hslots]; rfl, ?_⟩
    rw [Node.slotParts_cons_of_not_key hm, hparts]
  | name ht hm _ ih =>
    rw [List.forall_mem_cons] at hknown
    cases parts with
    | nil => cases hlen
    | cons part parts =>
      obtain ⟨slots, hslots, hparts⟩ :=
        ih (by omega) hsettled hknown.2 hpool owner (Nat.succ.inj hlen)
      refine ⟨some (.text part) :: slots, ?_, ?_⟩
      · rw [keySlots_name _ _ _ _ hm ht]
        dsimp only
        rw [hslots]
        rfl
      · rw [Node.slotParts_cons hm, hparts, Node.valueParts, List.singleton_append]
  | @reference m ms n k u ht hm hu hi hk _ ihk ih =>
    rw [List.forall_mem_cons] at hknown
    have hl := hknown.1 hm u.name ht
    obtain ⟨a, ha⟩ := Option.isSome_iff_exists.mp hl
    obtain ⟨s, hs, hname, before, hbefore, _, hkeeps, hnone, hfrom⟩ := hsettled.of_lookup ha
    obtain ⟨u', hu', rfl⟩ := List.mem_map.mp hs
    obtain rfl := eq_of_name_eq h hu' hu hname
    have htake : (parts.take k).length = k := by simp [hlen]
    have hdrop : (parts.drop k).length = _ := List.length_drop
    rw [hlen, Nat.add_sub_cancel_left] at hdrop
    -- The type is settled from others, so none of its own references leads back to it.
    obtain ⟨slots, hslots, hparts⟩ := ihk (by omega) hbefore
      (fun m hm hkey name hkind =>
        (hfrom.adds hi).lookup_isSome (List.mem_filter.mpr ⟨hm, hkey⟩) hkind)
      (hpool.without hkeeps hnone) u'.name htake
    obtain ⟨rest, hrest, hmore⟩ := ih (by omega) hsettled hknown.2 hpool owner hdrop
    have harity : u'.arity? = some k := by
      rw [arity_eq_some_iff h hu]
      exact ⟨hi, k, hk, (Nat.mod_eq_of_lt (by omega)).symm⟩
    refine ⟨some (.reference (.mk u' slots)) :: rest, ?_, ?_⟩
    · rw [keySlots_reference _ _ _ _ hm ht, hpool u' hu hl]
      dsimp only
      rw [harity]
      dsimp only
      rw [if_neg (by omega), hslots, hrest]
      rfl
    · rw [Node.slotParts_cons hm, hmore, Node.valueParts, Node.keyParts, hparts,
        List.take_append_drop]

theorem exists_placeholder {t : ConceptType} (ht : t ∈ r.types) (hi : t.isInterface = false)
    {n : Nat} (hn : r.Names t.members n) (hfits : n < wordSize) {parts : List String}
    (hlen : parts.length = n) :
    ∃ node, r.placeholder t parts = .ok node ∧ node.type = t ∧ node.keyParts = parts := by
  obtain ⟨known, hsettled, hknown⟩ := settled_of_buildWith h
  obtain ⟨s, hs, hname, before, hbefore, _, hkeeps, hnone, hfrom⟩ :=
    hsettled.of_lookup (hknown t ht)
  obtain ⟨u, hu, rfl⟩ := List.mem_map.mp hs
  obtain rfl := eq_of_name_eq h hu ht hname
  have hpool : r.Offers known r.types := fun u hu _ => find?_of_mem h hu
  obtain ⟨slots, hslots, hparts⟩ := exists_keySlots h hn hfits hbefore
    (fun m hm hkey name hkind =>
      (hfrom.adds hi).lookup_isSome (List.mem_filter.mpr ⟨hm, hkey⟩) hkind)
    (hpool.without hkeeps hnone) u.name hlen
  refine ⟨.mk u slots, ?_, rfl, ?_⟩
  · rw [placeholder, hslots]
    rfl
  · rw [Node.keyParts, hparts]

theorem length_slotParts {ms : List Member} {vs : List (Option Value)} (hb : r.KeysBound ms vs)
    {n : Nat} (hn : r.Names ms n) : (Node.slotParts ms vs).length = n := by
  induction hb generalizing n with
  | nil vs =>
    cases hn
    simp [Node.slotParts]
  | other hk _ ih =>
    rw [Node.slotParts_cons_of_not_key hk]
    cases hn with
    | other _ hn => exact ih hn
    | name _ hk' _ => simp [hk] at hk'
    | reference _ hk' _ _ _ _ => simp [hk] at hk'
  | key hk hbound htypes _ _ ihkeys ih =>
    rw [Node.slotParts_cons hk, List.length_append]
    obtain ⟨value, rfl, haccepts⟩ := hbound
    cases hn with
    | other hk' _ => simp [hk] at hk'
    | name hm _ hn =>
      obtain ⟨s, rfl⟩ := Node.exists_text_of_accepts hm haccepts
      rw [Node.valueParts, ih hn, List.length_singleton, Nat.add_comm]
    | @reference _ _ n k u hm _ hu hi hk hn =>
      rw [hm] at haccepts
      obtain ⟨node, rfl, hsat⟩ := Node.exists_reference_of_accepts haccepts
      -- A concept that stands for the target has the members of its key.
      have href := refines_of_name_eq h (htypes node rfl) hu (.inr ⟨hsat, hi⟩)
      obtain ⟨own, hown, hplain⟩ := href.members
      have hmembers : r.Names node.type.members k := by
        rw [hown]
        exact hk.append fun m hm => (hplain m hm).1
      rw [Node.valueParts, Node.keyParts_eq, ihkeys node rfl hmembers, ih hn]

/-- A concept that stands for a type has as many key parts as the key of the type has names. -/
theorem length_keyParts {t : ConceptType} (ht : t ∈ r.types) (hi : t.isInterface = false) {n : Nat}
    (hn : r.Names t.members n) {node : Node} (hnode : node.type ∈ r.types)
    (hisA : node.type.isA t.name = true) (hb : r.KeysBound node.type.members node.slots) :
    node.keyParts.length = n ∧ node.type.root = t.root := by
  obtain ⟨hroot, own, hown, hplain⟩ := refines_of_name_eq h hnode ht (.inr ⟨hisA, hi⟩)
  refine ⟨?_, hroot⟩
  rw [Node.keyParts_eq]
  refine length_slotParts h hb ?_
  rw [hown]
  exact hn.append fun m hm => (hplain m hm).1

/-- The arity of a type is the number of names in its key, unless a concept of it has more key parts
than a word can count. -/
theorem names_of_arity {t : ConceptType} (ht : t ∈ r.types) {n : Nat} (hn : t.arity? = some n)
    {node : Node} (hnode : node.type ∈ r.types) (hisA : node.type.isA t.name = true)
    (hb : r.KeysBound node.type.members node.slots) (hfits : node.keyParts.length < wordSize) :
    r.Names t.members n := by
  obtain ⟨hi, k, hk, rfl⟩ := (arity_eq_some_iff h ht).mp hn
  rw [(length_keyParts h ht hi hk hnode hisA hb).1] at hfits
  rwa [Nat.mod_eq_of_lt hfits]

end Built

end Registry

end ConceptScript
