import ConceptScript.Proofs.Node.Keyed
import ConceptScript.Proofs.Registry.Settling

namespace ConceptScript.Registry

open Relation (TransGen)

/-- A word can count the names of each key, as far as they can be counted from its start. -/
def Fits (r : Registry) : Prop :=
  ∀ t ∈ r.types, t.isInterface = false → ∀ before n, before <+: t.keys → r.Names before n →
    n < wordSize

theorem names_keys {r : Registry} {ms : List Member} {n : Nat} :
    r.Names (ms.filter Member.isKey) n ↔ r.Names ms n := by
  induction ms generalizing n with
  | nil => rfl
  | cons m ms ih =>
    cases hk : m.isKey with
    | false =>
      rw [List.filter_cons_of_neg (by simp [hk]), ih]
      constructor
      · exact .other hk
      · intro h
        cases h with
        | other _ h => exact h
        | name _ hk' _ => simp [hk] at hk'
        | reference _ hk' _ _ _ _ => simp [hk] at hk'
    | true =>
      rw [List.filter_cons_of_pos hk]
      constructor
      · intro h
        cases h with
        | other hk' _ => simp [hk] at hk'
        | name hm _ h => exact .name hm hk (ih.mp h)
        | reference hm _ hu hi hks h => exact .reference hm hk hu hi hks (ih.mp h)
      · intro h
        cases h with
        | other hk' _ => simp [hk] at hk'
        | name hm _ h => exact .name hm hk (ih.mpr h)
        | reference hm _ hu hi hks h => exact .reference hm hk hu hi hks (ih.mpr h)

/-- Numbers that stand for others, and go on doing so when they are added. -/
structure Addition.Tracks {ε : Type} (addition : Addition ε) (R : Nat → Nat → Prop) : Prop where
  zero : R 0 0
  one : R 1 1
  add : ∀ {a b c m n}, addition.add a b = .ok c → R a m → R b n → R c (m + n)

theorem Addition.tracks_wrapping : Addition.wrapping.Tracks fun k n => k = n % wordSize where
  zero := rfl
  one := rfl
  add := by
    rintro a b c m n h rfl rfl
    rw [← Except.ok.inj h, ← Nat.add_mod]

theorem Addition.checked_add (a b : Nat) : Addition.checked.add a b =
    if a + b < wordSize then .ok (a + b) else .error .overflow := rfl

theorem Addition.checked_add_eq_ok {a b c : Nat} :
    Addition.checked.add a b = .ok c ↔ a + b = c ∧ a + b < wordSize := by
  rw [checked_add]
  split
  · next h => simp [h]
  · next h => simp [h]

theorem addArity_eq_some {ε : Type} {addition : Addition ε} {start part : Option Nat} {c : Nat}
    (h : addArity addition start part = .ok (some c)) :
    ∃ a b, start = some a ∧ part = some b ∧ addition.add a b = .ok c := by
  cases start with
  | none => cases part <;> cases h
  | some a =>
    cases part with
    | none => cases h
    | some b =>
      obtain ⟨sum, hsum, hpure⟩ := bind_eq_ok.mp h
      exact ⟨a, b, rfl, rfl, Option.some.inj (pure_eq_ok.mp hpure) ▸ hsum⟩

section Tracks

variable {ε : Type} {addition : Addition ε} {R : Nat → Nat → Prop} (htracks : addition.Tracks R)
  {r : Registry} {known : Arities}

/-- The arities that are known stand for the numbers of names. -/
def StandsFor (r : Registry) (R : Nat → Nat → Prop) (known : Arities) : Prop :=
  ∀ name k, known.lookup name = some (some k) → ∃ u ∈ r.types, u.name = name ∧
    u.isInterface = false ∧ ∃ n, r.Names u.members n ∧ R k n

include htracks

theorem StandsFor.exists_cons (hknown : r.StandsFor R known) {m : Member} (hkey : m.isKey = true)
    {k : Nat} (hm : partArity? known m = some (some k)) :
    ∃ n, R k n ∧ ∀ ms j, r.Names ms j → r.Names (m :: ms) (n + j) := by
  have hname (ht : m.kind.target? = none) (hk : 1 = k) :
      ∃ n, R k n ∧ ∀ ms j, r.Names ms j → r.Names (m :: ms) (n + j) :=
    ⟨1, hk ▸ htracks.one, fun ms j hj => Nat.add_comm j 1 ▸ .name ht hkey hj⟩
  unfold partArity? at hm
  split at hm
  · next hkind => exact hname (by simp [hkind, MemberKind.target?]) (by simpa using hm)
  · next hkind => exact hname (by simp [hkind, MemberKind.target?]) (by simpa using hm)
  · next name hkind =>
    obtain ⟨u, hu, rfl, hi, n, hn, hR⟩ := hknown name k hm
    exact ⟨n, hR, fun ms j hj => .reference hkind hkey hu hi hn hj⟩
  · cases hm
  · cases hm

/-- A sum of arities is a number only if all of them are. -/
theorem StandsFor.exists_names (hknown : r.StandsFor R known) {ms : List Member}
    (hkeys : ∀ m ∈ ms, m.isKey = true) {start : Option Nat} {n : Nat}
    (hsum : Adds addition known start ms (.ok (some n))) :
    ∃ a, start = some a ∧ ∀ j, R a j → ∃ k, r.Names ms k ∧ R n (j + k) := by
  induction ms generalizing start with
  | nil => exact ⟨n, adds_nil.mp hsum, fun j hj => ⟨0, .nil, hj⟩⟩
  | cons m ms ih =>
    rw [List.forall_mem_cons] at hkeys
    obtain ⟨part, total, hpart, htotal, hsum⟩ := adds_cons.mp hsum
    obtain ⟨b, rfl, hb⟩ := ih hkeys.2 hsum
    obtain ⟨a, k, rfl, rfl, hadd⟩ := addArity_eq_some htotal
    obtain ⟨i, hi, hcons⟩ := hknown.exists_cons htracks hkeys.1 hpart
    refine ⟨a, rfl, fun j hj => ?_⟩
    obtain ⟨l, hl, hn⟩ := hb _ (htracks.add hadd hj hi)
    exact ⟨i + l, hcons ms l hl, Nat.add_assoc j i l ▸ hn⟩

theorem Settled.standsFor (h : Settled addition (r.types.map ConceptType.toShape) known) :
    r.StandsFor R known := by
  induction h with
  | nil => simp [StandsFor]
  | @cons known s a _ hs _ hfrom ih =>
    intro name k hl
    by_cases hname : name = s.name
    · subst hname
      obtain rfl : a = some k := by simpa [List.lookup_cons] using hl
      obtain ⟨u, hu, rfl⟩ := List.mem_map.mp hs
      have hi : u.isInterface = false := by
        cases hi : u.isInterface with
        | false => rfl
        | true => simp [Follows, hi] at hfrom
      obtain ⟨a, ha, hsum⟩ := ih.exists_names htracks (by simp [Shape.keys]) (hfrom.adds hi)
      obtain rfl := Option.some.inj ha
      obtain ⟨n, hn, hR⟩ := hsum 0 htracks.zero
      exact ⟨u, hu, rfl, hi, n, names_keys.mp hn, Nat.zero_add n ▸ hR⟩
    · rw [lookup_cons_of_ne hname] at hl
      exact ih name k hl

theorem Names.of_adds (hnames : (r.types.map fun t => t.name).Nodup)
    (hknown : Settled addition (r.types.map ConceptType.toShape) known) {ms : List Member} {n : Nat}
    (h : r.Names ms n) {a j : Nat} (ha : R a j) {x : Option Nat}
    (hsum : Adds addition known (some a) (ms.filter Member.isKey) (.ok x)) :
    ∃ c, x = some c ∧ R c (j + n) := by
  induction h generalizing a j x with
  | nil => exact ⟨a, (adds_nil.mp hsum).symm, ha⟩
  | other hk _ ih =>
    rw [List.filter_cons_of_neg (by simp [hk])] at hsum
    exact ih ha hsum
  | @name m ms n hm hk _ ih =>
    rw [List.filter_cons_of_pos hk] at hsum
    obtain ⟨part, total, hpart, htotal, hsum⟩ := adds_cons.mp hsum
    obtain rfl : some 1 = part := by
      cases hkind : m.kind <;> simp_all [partArity?, MemberKind.target?]
    obtain ⟨c, hc, hpure⟩ := bind_eq_ok.mp htotal
    obtain rfl := pure_eq_ok.mp hpure
    rw [Nat.add_comm n 1, ← Nat.add_assoc]
    exact ih (htracks.add hc ha htracks.one) hsum
  | @reference m ms n k u hm hk hu hi _ _ ihk ih =>
    rw [List.filter_cons_of_pos hk] at hsum
    obtain ⟨part, total, hpart, htotal, hsum⟩ := adds_cons.mp hsum
    rw [partArity?, hm] at hpart
    obtain ⟨s, hs, hname, hfrom⟩ := hknown.follows_of_lookup hpart
    obtain ⟨u', hu', rfl⟩ := List.mem_map.mp hs
    obtain rfl := List.inj_on_of_nodup_map hnames hu' hu hname
    obtain ⟨b, rfl, hb⟩ := ihk htracks.zero (hfrom.adds hi)
    obtain ⟨c, hc, hpure⟩ := bind_eq_ok.mp htotal
    obtain rfl := pure_eq_ok.mp hpure
    rw [← Nat.add_assoc]
    exact ih (htracks.add hc ha (Nat.zero_add k ▸ hb)) hsum

end Tracks

/-- A sum that fits is the same where sums start again at zero. -/
theorem Adds.wrapping {known : Arities} {start : Option Nat} {ms : List Member} {a : Option Nat}
    (h : Adds .checked known start ms (.ok a)) : Adds .wrapping known start ms (.ok a) := by
  have hadd {start part total : Option Nat} (h : addArity .checked start part = .ok total) :
      addArity .wrapping start part = .ok total := by
    cases start with
    | none => cases part <;> exact congrArg Except.ok (Except.ok.inj h)
    | some a =>
      cases part with
      | none => exact congrArg Except.ok (Except.ok.inj h)
      | some b =>
        obtain ⟨sum, hsum, hpure⟩ := bind_eq_ok.mp h
        obtain rfl := pure_eq_ok.mp hpure
        obtain ⟨rfl, hlt⟩ := Addition.checked_add_eq_ok.mp hsum
        exact congrArg (fun n => Except.ok (some n)) (Nat.mod_eq_of_lt hlt)
  induction ms generalizing start with
  | nil => exact adds_nil.mpr (adds_nil.mp h)
  | cons m ms ih =>
    obtain ⟨part, total, hpart, htotal, hrest⟩ := adds_cons.mp h
    exact adds_cons.mpr ⟨part, total, hpart, hadd htotal, ih hrest⟩

theorem Settled.wrapping {shapes : List Shape} {known : Arities}
    (h : Settled .checked shapes known) : Settled .wrapping shapes known := by
  induction h with
  | nil => exact .nil
  | @cons known s a _ hs hnew hfrom ih =>
    refine ih.cons hs hnew ?_
    unfold Follows at hfrom ⊢
    split
    · next hi => rwa [if_pos hi] at hfrom
    · next hi =>
      rw [if_neg hi] at hfrom
      exact hfrom.wrapping

section Built

variable {declared : List Declaration} {r : Registry}

theorem follows_of_buildWith {ε : Type} {addition : Addition ε}
    (hnames : (r.types.map fun t => t.name).Nodup) {known : Arities}
    (hsettled : Settled addition (r.types.map ConceptType.toShape) known)
    (hknown : ∀ t ∈ r.types, known.lookup t.name = some t.arity?) {t : ConceptType}
    (ht : t ∈ r.types) : Follows addition known t.toShape t.arity? := by
  obtain ⟨s, hs, hname, hfrom⟩ := hsettled.follows_of_lookup (hknown t ht)
  obtain ⟨u, hu, rfl⟩ := List.mem_map.mp hs
  obtain rfl := List.inj_on_of_nodup_map hnames hu ht hname
  exact hfrom

/-- The arity of a type that is no interface counts the names of its key, as a word does. -/
theorem arity_eq_some_iff (h : build declared = .ok r) {t : ConceptType} (ht : t ∈ r.types)
    {n : Nat} : t.arity? = some n ↔
      t.isInterface = false ∧ ∃ k, r.Names t.members k ∧ n = k % wordSize := by
  obtain ⟨known, hsettled, hknown⟩ := settled_of_buildWith h
  have hnames := names_nodup_of_build h
  constructor
  · intro hn
    obtain ⟨u, hu, hname, hi, k, hk, hR⟩ := hsettled.standsFor Addition.tracks_wrapping t.name n
      ((hknown t ht).trans (congrArg some hn))
    obtain rfl := List.inj_on_of_nodup_map hnames hu ht hname
    exact ⟨hi, k, hk, hR⟩
  · rintro ⟨hi, k, hk, rfl⟩
    have hsum := (follows_of_buildWith hnames hsettled hknown ht).adds hi
    obtain ⟨c, hc, hR⟩ := hk.of_adds Addition.tracks_wrapping hnames hsettled
      Addition.tracks_wrapping.zero hsum
    rw [hc, hR, Nat.zero_add]

end Built

end ConceptScript.Registry
