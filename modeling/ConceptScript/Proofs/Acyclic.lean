import Mathlib.Data.Fintype.Card
import Mathlib.Data.Set.Finite.List
import Mathlib.Logic.Relation

namespace ConceptScript

open Relation (TransGen)

variable {α : Type} {R : α → α → Prop} {xs : List α}

/-- Where everything that is left over waits for something that is, there is a cycle. -/
theorem exists_cycle (hne : xs ≠ []) (h : ∀ a ∈ xs, ∃ b ∈ xs, R b a) :
    ∃ a ∈ xs, TransGen R a a := by
  by_contra hnone
  have hfinite : Finite { a // a ∈ xs } := (List.finite_toSet xs).to_subtype
  have htrans : IsTrans { a // a ∈ xs } fun a b => TransGen R a.1 b.1 := ⟨fun _ _ _ => .trans⟩
  have hirrefl : Std.Irrefl fun a b : { a // a ∈ xs } => TransGen R a.1 b.1 :=
    ⟨fun a ha => hnone ⟨a.1, a.2, ha⟩⟩
  have hwf := Finite.wellFounded_of_trans_of_irrefl fun a b : { a // a ∈ xs } => TransGen R a.1 b.1
  obtain ⟨a, ha⟩ := List.exists_mem_of_ne_nil xs hne
  obtain ⟨least, _, hleast⟩ := hwf.has_min Set.univ ⟨⟨a, ha⟩, trivial⟩
  obtain ⟨b, hb, hR⟩ := h least.1 least.2
  exact hleast ⟨b, hb⟩ trivial (.single hR)

theorem exists_path {β : Type} {R' : β → β → Prop} {S : α → β → Prop}
    (h : ∀ a a' b, S a b → R a a' → ∃ b', S a' b' ∧ R' b b') {a a' : α} {b : β}
    (hab : S a b) (haa' : TransGen R a a') : ∃ b', S a' b' ∧ TransGen R' b b' := by
  induction haa' with
  | single hstep =>
    obtain ⟨b', hb', hbb'⟩ := h _ _ _ hab hstep
    exact ⟨b', hb', .single hbb'⟩
  | tail _ hstep ih =>
    obtain ⟨b', hb', hbb'⟩ := ih
    obtain ⟨b'', hb'', hstep'⟩ := h _ _ _ hb' hstep
    exact ⟨b'', hb'', hbb'.tail hstep'⟩

end ConceptScript
