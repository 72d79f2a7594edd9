import Mathlib.Data.List.Induction
import Mathlib.Data.List.Perm.Basic
import ConceptScript.Proofs.Model.Placing

namespace ConceptScript.Model

/-- What an order of dependencies is: all concepts, each after the others that it refers to. -/
structure Ordered (m : Model) (order : List Node) : Prop where
  perm : order.Perm m.concepts
  after : ∀ before n rest, order = before ++ n :: rest → ∀ p ∈ n.references,
    m.contains p.2.key = true → p.2.key = n.key ∨ ∃ n' ∈ before, n'.key = p.2.key

theorem mem_dependencies {m : Model} {i d : Nat} {e : Entry} :
    d ∈ m.dependencies i e ↔ (∃ p ∈ e.node.references, m.byKey[p.2.key]? = some d) ∧ d ≠ i := by
  simp [dependencies]

theorem dependencies_getD {m : Model} {i : Nat} {e : Entry} (h : m.entries[i]? = some e) :
    (m.entries.mapIdx m.dependencies).getD i [] = m.dependencies i e := by
  simp [Array.getD_eq_getD_getElem?, h]

theorem filterMap_getElem?_range {α : Type} (xs : List α) :
    (List.range xs.length).filterMap (xs[·]?) = xs := by
  induction xs using List.reverseRecOn with
  | nil => rfl
  | append_singleton xs x ih =>
    have hinit : (List.range xs.length).filterMap ((xs ++ [x])[·]?) = xs := by
      rw [← List.filterMap_congr (f := (xs[·]?)), ih]
      intro i hi
      rw [List.getElem?_append_left (List.mem_range.mp hi)]
    rw [List.length_append, List.length_singleton, List.range_succ, List.filterMap_append, hinit]
    simp

theorem exists_place {m : Model} {order : List Entry} (h : m.dependencyOrder = .ok order) :
    ∃ is, place (m.entries.mapIdx m.dependencies) ∅ (List.range m.size) = (is, []) ∧
      order.map Entry.node = is.filterMap (m.concepts[·]?) := by
  obtain ⟨is, stuck, hplace, ⟨rfl, hok⟩ | ⟨_, herror⟩⟩ := m.dependencyOrder_cases
  · obtain rfl := Except.ok.inj (hok.symm.trans h)
    refine ⟨is, hplace, ?_⟩
    rw [List.map_filterMap]
    exact congrArg (is.filterMap ·) (funext fun i => (m.concepts_getElem? i).symm)
  · cases herror.symm.trans h

theorem dependencyOrder_eq_ok {m : Model} {order : List Entry} (hm : m.Indexed)
    (h : m.dependencyOrder = .ok order) : m.Ordered (order.map Entry.node) := by
  obtain ⟨is, hplace, hnodes⟩ := exists_place h
  have hspec := place_spec (m.entries.mapIdx m.dependencies) ∅ (List.range m.size)
  rw [hplace] at hspec
  obtain ⟨hperm, hdeps⟩ := hspec
  rw [List.append_nil] at hperm
  rw [hnodes]
  constructor
  · have hall := filterMap_getElem?_range m.concepts
    rw [m.length_concepts] at hall
    exact (hperm.filterMap _).trans (.of_eq hall)
  · intro before n rest hsplit p hp hcontains
    obtain ⟨is₁, is₂, rfl, rfl, hrest⟩ := List.filterMap_eq_append_iff.mp hsplit
    obtain ⟨skipped, i, is₃, rfl, hskipped, hn, rfl⟩ := List.filterMap_eq_cons_iff.mp hrest
    obtain ⟨e, he, rfl⟩ := exists_entry hn
    obtain ⟨d, hd⟩ : ∃ d, m.byKey[p.2.key]? = some d :=
      Option.isSome_iff_exists.mp (by simpa [contains] using hcontains)
    have hkey := (hm.byKey p.2.key d).mp hd
    rw [List.getElem?_map, Option.map_eq_some_iff] at hkey
    obtain ⟨n', hn', hn'key⟩ := hkey
    by_cases hdi : d = i
    · subst hdi
      rw [hn, Option.some.injEq] at hn'
      exact .inl (hn' ▸ hn'key.symm)
    · have hmem : d ∈ (m.entries.mapIdx m.dependencies).getD i [] := by
        rw [dependencies_getD he]
        exact mem_dependencies.mpr ⟨⟨p, hp, hd⟩, hdi⟩
      rcases hdeps (is₁ ++ skipped) i is₃ (by simp) d hmem with hempty | hbefore
      · simp at hempty
      · rcases List.mem_append.mp hbefore with hb | hb
        · exact .inr ⟨n', List.mem_filterMap.mpr ⟨d, hb, hn'⟩, hn'key⟩
        · simp [hskipped d hb] at hn'

theorem dependencyOrder_head {m : Model} {order : List Entry} (h : m.dependencyOrder = .ok order)
    {n : Node} (hn : m.concepts[0]? = some n) (hreferences : n.references = []) :
    ∃ rest, order.map Entry.node = n :: rest := by
  obtain ⟨is, hplace, hnodes⟩ := exists_place h
  obtain ⟨e, he, rfl⟩ := exists_entry hn
  have hready : isReady (m.entries.mapIdx m.dependencies) ∅ 0 = true := by
    rw [isReady, dependencies_getD he]
    simp [dependencies, hreferences]
  obtain ⟨size, hsize⟩ : ∃ size, m.size = size + 1 := by
    obtain ⟨hlt, _⟩ := List.getElem?_eq_some_iff.mp hn
    rw [m.length_concepts] at hlt
    exact Nat.exists_eq_succ_of_ne_zero (Nat.ne_of_gt hlt)
  have hfirst : (List.range m.size).find? (isReady (m.entries.mapIdx m.dependencies) ∅) =
      some 0 := by
    rw [hsize, List.range_succ_eq_map, List.find?_cons, hready]
  rw [place_of_some hfirst] at hplace
  rw [hnodes, ← (Prod.mk.inj hplace).1, List.filterMap_cons, hn]
  exact ⟨_, rfl⟩

/-- Where every concept refers to itself and to earlier ones only, the order is that of the
entries. -/
theorem dependencyOrder_of_backward {m : Model} (hm : m.Indexed)
    (h : m.concepts.Pairwise fun n later => ∀ p ∈ n.references, later.key ≠ p.2.key) :
    m.dependencyOrder = .ok m.entries.toList := by
  have hdeps : ∀ i, ∀ d ∈ (m.entries.mapIdx m.dependencies).getD i [], d < i := by
    intro i d hd
    cases he : m.entries[i]? with
    | none => simp [Array.getD_eq_getD_getElem?, he] at hd
    | some e =>
      rw [dependencies_getD he] at hd
      obtain ⟨⟨p, hp, hbyKey⟩, hne⟩ := mem_dependencies.mp hd
      obtain ⟨e', he', hkey⟩ := hm.byKey_eq_some_iff.mp hbyKey
      by_contra hlt
      obtain ⟨hi, hn⟩ := List.getElem?_eq_some_iff.mp (concept_of_entry he)
      obtain ⟨hd, hn'⟩ := List.getElem?_eq_some_iff.mp (concept_of_entry he')
      refine List.pairwise_iff_getElem.mp h i d hi hd (by omega) p (hn ▸ hp) ?_
      rw [hn', ← hm.key_eq_of_getElem? he', hkey]
  have hrange := place_range ∅ 0 m.size (by simp) hdeps
  rw [← List.range_eq_range'] at hrange
  have hall := filterMap_getElem?_range m.entries.toList
  obtain ⟨is, stuck, hplace, hcases⟩ := m.dependencyOrder_cases
  obtain ⟨rfl, rfl⟩ := Prod.mk.inj (hplace.symm.trans hrange)
  rcases hcases with ⟨_, hok⟩ | ⟨hne, _⟩
  · rw [hok]
    simpa [size] using hall
  · exact absurd rfl hne

end ConceptScript.Model
