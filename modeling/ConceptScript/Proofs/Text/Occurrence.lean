import Mathlib.Data.List.Infix
import ConceptScript.Text.Search

namespace ConceptScript.Text

variable {p : List Char}

/-- No occurrence of the pattern starts in the text, whether it ends there or in what follows. -/
def Clear (p : List Char) : List Char → List Char → Prop
  | [], _ => True
  | c :: cs, rest => ¬p <+: c :: (cs ++ rest) ∧ Clear p cs rest

theorem clear_append {xs ys rest : List Char} :
    Clear p (xs ++ ys) rest ↔ Clear p xs (ys ++ rest) ∧ Clear p ys rest := by
  induction xs with
  | nil => simp [Clear]
  | cons c xs ih => simp [Clear, ih, and_assoc]

theorem Clear.of_isPrefix {q xs rest : List Char} (h : Clear p xs rest) (hq : p <+: q) :
    Clear q xs rest := by
  induction xs with
  | nil => trivial
  | cons c xs ih => exact ⟨fun hc => h.1 (hq.trans hc), ih h.2⟩

theorem prefix_append_cases {xs rest : List Char} (h : p <+: xs ++ rest) :
    p <+: xs ∨ ∃ s, s ≠ [] ∧ p = xs ++ s ∧ s <+: rest := by
  rcases List.prefix_or_prefix_of_prefix h (List.prefix_append xs rest) with hp | ⟨s, rfl⟩
  · exact .inl hp
  · by_cases hs : s = []
    · subst hs
      exact .inl (by simp)
    · exact .inr ⟨s, hs, rfl, (List.prefix_append_right_inj xs).mp h⟩

/-- A text is clear of a pattern that is not in it, if what follows does not begin with a proper
end of the pattern. -/
theorem clear_of_not_infix {xs rest : List Char} (h : ¬p <:+: xs)
    (hends : ∀ s, s <:+ p → s ≠ [] → s ≠ p → ¬s <+: rest) : Clear p xs rest := by
  induction xs with
  | nil => trivial
  | cons c xs ih =>
    rw [List.infix_cons_iff, not_or] at h
    refine ⟨fun hc => ?_, ih h.2⟩
    rw [← List.cons_append] at hc
    rcases prefix_append_cases hc with hp | ⟨s, hs, rfl, hrest⟩
    · exact h.1 hp
    · refine hends s (List.suffix_append _ _) hs ?_ hrest
      intro he
      have := congrArg List.length he
      simp at this
      omega

theorem cutAt?_append_self (p rest : List Char) : cutAt? p (p ++ rest) = some ([], rest) := by
  cases h : p ++ rest with
  | nil =>
    obtain ⟨rfl, rfl⟩ := List.append_eq_nil_iff.mp h
    rfl
  | cons c cs =>
    have hp : p.isPrefixOf? (c :: cs) = some rest :=
      List.isPrefixOf?_eq_some_iff_append_eq.mpr h
    rw [cutAt?, hp]

theorem cutAt?_cons_of_not_isPrefix {c : Char} {cs : List Char} (h : ¬p <+: c :: cs) :
    cutAt? p (c :: cs) = (cutAt? p cs).map fun cut => (c :: cut.1, cut.2) := by
  cases hp : p.isPrefixOf? (c :: cs) with
  | some rest => exact absurd ⟨rest, append_of_isPrefixOf? hp⟩ h
  | none => rw [cutAt?, hp]

theorem cutAt?_clear {xs rest : List Char} (h : Clear p xs rest) :
    cutAt? p (xs ++ rest) = (cutAt? p rest).map fun cut => (xs ++ cut.1, cut.2) := by
  induction xs with
  | nil => simp
  | cons c xs ih =>
    rw [List.cons_append, cutAt?_cons_of_not_isPrefix h.1, ih h.2, Option.map_map]
    rfl

theorem cutAt?_eq_none_iff {text : List Char} : cutAt? p text = none ↔ ¬p <:+: text := by
  induction text with
  | nil =>
    rw [List.infix_nil, cutAt?]
    split <;> simp_all
  | cons c cs ih =>
    rw [List.infix_cons_iff, not_or]
    by_cases hp : p <+: c :: cs
    · obtain ⟨rest, hrest⟩ := hp
      rw [← hrest, cutAt?_append_self]
      simp
    · rw [cutAt?_cons_of_not_isPrefix hp, Option.map_eq_none_iff, ih]
      exact (and_iff_right hp).symm

theorem cutAt?_append {text before after : List Char}
    (h : cutAt? p text = some (before, after)) (more : List Char) :
    cutAt? p (text ++ more) = some (before, after ++ more) := by
  induction text generalizing before with
  | nil =>
    obtain ⟨hp, _⟩ := List.append_eq_nil_iff.mp (eq_of_cutAt? h).symm
    obtain rfl := (List.append_eq_nil_iff.mp hp).2
    obtain ⟨rfl, rfl⟩ := Prod.mk.inj (Option.some.inj h)
    exact cutAt?_append_self [] more
  | cons c cs ih =>
    by_cases hp : p <+: c :: cs
    · obtain ⟨rest, hrest⟩ := hp
      rw [← hrest, cutAt?_append_self] at h
      obtain ⟨rfl, rfl⟩ := Prod.mk.inj (Option.some.inj h)
      rw [← hrest, List.append_assoc, cutAt?_append_self]
    · rw [cutAt?_cons_of_not_isPrefix hp, Option.map_eq_some_iff] at h
      obtain ⟨⟨inner, _⟩, hcut, heq⟩ := h
      obtain ⟨rfl, rfl⟩ := Prod.mk.inj heq
      -- The pattern is found further on, so it is too short to reach behind the text from here.
      have hmore : ¬p <+: c :: (cs ++ more) := by
        intro hprefix
        rw [← List.cons_append] at hprefix
        rcases prefix_append_cases hprefix with h | ⟨s, _, rfl, _⟩
        · exact hp h
        · have hlength := congrArg List.length (eq_of_cutAt? hcut)
          simp only [List.length_append, List.length_cons] at hlength
          omega
      rw [List.cons_append, cutAt?_cons_of_not_isPrefix hmore, ih hcut]
      rfl

/-- A text is cut where the pattern first ends: none ends within what is before the cut and all of
the pattern but its last character. -/
theorem not_infix_of_cutAt? {text before after : List Char} (hp : p ≠ [])
    (h : cutAt? p text = some (before, after)) : ¬p <:+: before ++ p.dropLast := by
  have hshort : ¬p <:+: p.dropLast := by
    intro hinfix
    have hlength := hinfix.length_le
    have hpos := List.length_pos_iff.mpr hp
    rw [List.length_dropLast] at hlength
    omega
  induction text generalizing before with
  | nil =>
    have hnone : cutAt? p [] = none := if_neg hp
    cases hnone.symm.trans h
  | cons c cs ih =>
    by_cases hfirst : p <+: c :: cs
    · obtain ⟨rest, hrest⟩ := hfirst
      rw [← hrest, cutAt?_append_self] at h
      obtain ⟨rfl, rfl⟩ := Prod.mk.inj (Option.some.inj h)
      exact hshort
    · rw [cutAt?_cons_of_not_isPrefix hfirst, Option.map_eq_some_iff] at h
      obtain ⟨⟨inner, _⟩, hcut, heq⟩ := h
      obtain ⟨rfl, rfl⟩ := Prod.mk.inj heq
      rw [List.cons_append, List.infix_cons_iff, not_or]
      refine ⟨fun hsooner => hfirst (hsooner.trans ?_), ih hcut⟩
      rw [eq_of_cutAt? hcut, List.cons_prefix_cons, List.append_assoc,
        List.prefix_append_right_inj]
      exact ⟨rfl, (List.dropLast_prefix p).trans (List.prefix_append p _)⟩

theorem contains_eq_false_iff {text pattern : String} :
    contains text pattern = false ↔ ¬pattern.toList <:+: text.toList := by
  rw [contains, Option.isSome_eq_false_iff, Option.isNone_iff_eq_none, cutAt?_eq_none_iff]

section Substitute

variable {new : List Char} (hp : p ≠ [])

theorem substitute_of_none {text : List Char} (h : cutAt? p text = none) :
    substitute p new hp text = text := by
  rw [substitute]
  split
  · rfl
  · next hc => simp [h] at hc

theorem substitute_of_some {text before after : List Char}
    (h : cutAt? p text = some (before, after)) :
    substitute p new hp text = before ++ new ++ substitute p new hp after := by
  rw [substitute]
  split
  · next hc => simp [h] at hc
  · next hc =>
    obtain ⟨rfl, rfl⟩ := Prod.mk.inj (Option.some.inj (h.symm.trans hc))
    rfl

theorem substitute_append_self (rest : List Char) :
    substitute p new hp (p ++ rest) = new ++ substitute p new hp rest := by
  rw [substitute_of_some hp (cutAt?_append_self p rest), List.nil_append]

theorem substitute_clear {xs rest : List Char} (h : Clear p xs rest) :
    substitute p new hp (xs ++ rest) = xs ++ substitute p new hp rest := by
  cases hc : cutAt? p rest with
  | none =>
    rw [substitute_of_none hp hc, substitute_of_none hp (by rw [cutAt?_clear h, hc]; rfl)]
  | some cut =>
    have hcut : cutAt? p (xs ++ rest) = some (xs ++ cut.1, cut.2) := by
      rw [cutAt?_clear h, hc]
      rfl
    rw [substitute_of_some hp hc, substitute_of_some hp hcut]
    simp only [List.append_assoc]

theorem mem_substitute {text : List Char} {c : Char} (h : c ∈ substitute p new hp text) :
    c ∈ text ∨ c ∈ new := by
  induction text using substitute.induct p hp with
  | case1 text hc =>
    rw [substitute_of_none hp hc] at h
    exact .inl h
  | case2 text before after hc ih =>
    rw [substitute_of_some hp hc] at h
    rw [eq_of_cutAt? hc]
    simp only [List.mem_append] at h ⊢
    rcases h with (h | h) | h
    · exact .inl (.inl (.inl h))
    · exact .inr h
    · exact (ih h).imp .inr id

end Substitute

theorem replace_eq {text pattern new : String} (hp : pattern.toList ≠ []) :
    replace text pattern new = .ofList (substitute pattern.toList new.toList hp text.toList) := by
  rw [replace, replaceAll, dif_pos hp]

end ConceptScript.Text
