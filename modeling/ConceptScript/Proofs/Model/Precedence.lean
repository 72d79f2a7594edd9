import ConceptScript.Proofs.Acyclic
import ConceptScript.Proofs.Model.Dependencies
import ConceptScript.Proofs.Model.Listing

namespace ConceptScript.Model

open Relation (TransGen)

section Place

variable {dependencies : Array (List Nat)} {placed : Std.HashSet Nat} {remaining : List Nat}

/-- What is left over waits for something that is not placed. -/
theorem exists_open_dependency (dependencies : Array (List Nat)) (placed : Std.HashSet Nat)
    (remaining : List Nat) : ∀ i ∈ (place dependencies placed remaining).2,
      ∃ d ∈ dependencies.getD i [], d ∉ placed ∧ d ∉ (place dependencies placed remaining).1 := by
  induction hn : remaining.length using Nat.strongRecOn generalizing placed remaining with
  | ind n ih =>
    intro i hi
    cases hf : remaining.find? (isReady dependencies placed) with
    | none =>
      rw [place_of_none hf] at hi ⊢
      have hready := List.find?_eq_none.mp hf i hi
      simp only [isReady, List.all_eq_true, not_forall] at hready
      obtain ⟨d, hd, hopen⟩ := hready
      exact ⟨d, hd, by simpa using hopen, by simp⟩
    | some j =>
      have hj := List.mem_of_find?_eq_some hf
      have hlt : (remaining.erase j).length < n := by
        have := List.length_pos_of_mem hj
        rw [List.length_erase_of_mem hj]
        omega
      rw [place_of_some hf] at hi ⊢
      obtain ⟨d, hd, hopen, horder⟩ := ih _ hlt (placed.insert j) (remaining.erase j) rfl i hi
      simp only [Std.HashSet.mem_insert, beq_iff_eq, not_or] at hopen
      exact ⟨d, hd, hopen.2, List.not_mem_cons_of_ne_of_not_mem (Ne.symm hopen.1) horder⟩

/-- The indexes come after their dependencies, as far as these are not placed already. -/
def Follows (dependencies : Array (List Nat)) (placed : Std.HashSet Nat) (is : List Nat) : Prop :=
  ∀ before i after, is = before ++ i :: after →
    ∀ d ∈ dependencies.getD i [], d ∈ placed ∨ d ∈ before

theorem Follows.ready {i : Nat} {is : List Nat} (h : Follows dependencies placed (i :: is)) :
    isReady dependencies placed i = true := by
  refine List.all_eq_true.mpr fun d hd => ?_
  rcases h [] i is rfl d hd with hp | hb
  · exact Std.HashSet.mem_iff_contains.mp hp
  · cases hb

theorem Follows.tail {i : Nat} {is : List Nat} (h : Follows dependencies placed (i :: is)) :
    Follows dependencies (placed.insert i) is := by
  rintro before j after rfl d hd
  rcases h (i :: before) j after rfl d hd with hp | hb
  · exact .inl (Std.HashSet.mem_insert.mpr (.inr hp))
  · rcases List.mem_cons.mp hb with rfl | hb
    · exact .inl Std.HashSet.mem_insert_self
    · exact .inr hb

theorem find?_le {p : Nat → Bool} (hsorted : remaining.Pairwise (· < ·)) {i j : Nat}
    (hi : remaining.find? p = some i) (hj : j ∈ remaining) (hp : p j = true) : i ≤ j := by
  obtain ⟨_, before, after, rfl, hbefore⟩ := List.find?_eq_some_iff_append.mp hi
  rcases List.mem_append.mp hj with hj | hj
  · have := hbefore j hj
    simp [hp] at this
  · rcases List.mem_cons.mp hj with rfl | hj
    · exact Nat.le_refl _
    · exact Nat.le_of_lt (List.rel_of_pairwise_cons (List.pairwise_append.mp hsorted).2.1 hj)

/-- No order of ascending numbers is less than the one in which they are placed. -/
theorem place_least {order js : List Nat} (hsorted : remaining.Pairwise (· < ·))
    (hplace : place dependencies placed remaining = (order, [])) (hperm : js.Perm remaining)
    (hjs : Follows dependencies placed js) : js = order ∨ order < js := by
  induction js generalizing placed remaining order with
  | nil =>
    obtain rfl := hperm.nil_eq
    rw [place_of_none rfl] at hplace
    exact .inl (Prod.mk.inj hplace).1
  | cons j js ih =>
    have hj : j ∈ remaining := hperm.subset List.mem_cons_self
    obtain ⟨i, hi⟩ := Option.isSome_iff_exists.mp (List.find?_isSome.mpr ⟨j, hj, hjs.ready⟩)
    rw [place_of_some hi] at hplace
    obtain ⟨rfl, hstuck⟩ := Prod.mk.inj hplace
    rcases Nat.lt_or_eq_of_le (find?_le hsorted hi hj hjs.ready) with hlt | rfl
    · exact .inr (List.cons_lt_cons_iff.mpr (.inl hlt))
    · -- Both start alike, and the rest of each follows what is placed then.
      have hrest : js.Perm (remaining.erase i) := (hperm.trans (List.perm_cons_erase hj)).cons_inv
      rcases ih (hsorted.sublist List.erase_sublist) (Prod.ext rfl hstuck) hrest hjs.tail with
        heq | hlt
      · exact .inl (congrArg (i :: ·) heq)
      · exact .inr (List.cons_lt_cons_iff.mpr (.inr ⟨rfl, hlt⟩))

end Place

/-- The entry at the first index is another one than that at the second, which refers to it. -/
def Precedes (m : Model) (i j : Nat) : Prop :=
  i ≠ j ∧ ∃ target n, m.concepts[i]? = some target ∧ m.concepts[j]? = some n ∧
    ∃ p ∈ n.references, p.2.key = target.key

def precedesIn (cs : List Node) (i j : Nat) : Bool :=
  i != j && cs[i]?.any fun target => cs[j]?.any fun n =>
    n.references.any fun p => p.2.key == target.key

theorem precedes_iff {m : Model} {i j : Nat} :
    m.Precedes i j ↔ precedesIn m.concepts i j = true := by
  simp only [Precedes, precedesIn, Bool.and_eq_true, bne_iff_ne, Option.any_eq_true,
    List.any_eq_true, beq_iff_eq]
  constructor
  · rintro ⟨hne, target, n, htarget, hn, p, hp, hk⟩
    exact ⟨hne, target, htarget, n, hn, p, hp, hk⟩
  · rintro ⟨hne, target, htarget, n, hn, p, hp, hk⟩
    exact ⟨hne, target, n, htarget, hn, p, hp, hk⟩

/-- All indexes of entries, each after those of the entries that it refers to. -/
structure Arranges (m : Model) (is : List Nat) : Prop where
  perm : is.Perm (List.range m.size)
  after : ∀ before j rest, is = before ++ j :: rest → ∀ i, m.Precedes i j → i ∈ before

theorem Precedes.lt_size {m : Model} {i j : Nat} (h : m.Precedes i j) :
    i < m.size ∧ j < m.size := by
  obtain ⟨_, target, n, hi, hj, _⟩ := h
  rw [← m.length_concepts]
  exact ⟨(List.getElem?_eq_some_iff.mp hi).1, (List.getElem?_eq_some_iff.mp hj).1⟩

theorem forall_precedes {m : Model} {cs : List Node} (hcs : m.concepts = cs)
    {P : Nat → Nat → Prop}
    (h : ∀ i < cs.length, ∀ j < cs.length, precedesIn cs i j = true → P i j) {i j : Nat}
    (hij : m.Precedes i j) : P i j := by
  obtain ⟨hi, hj⟩ := hij.lt_size
  rw [← m.length_concepts, hcs] at hi hj
  rw [precedes_iff, hcs] at hij
  exact h i hi j hj hij

theorem mem_dependencies_iff {m : Model} (hm : m.Indexed) {i j : Nat} :
    i ∈ (m.entries.mapIdx m.dependencies).getD j [] ↔ m.Precedes i j := by
  cases he : m.entries[j]? with
  | none =>
    have hnone : m.concepts[j]? = none := by rw [m.concepts_getElem?, he, Option.map_none]
    simp [Array.getD_eq_getD_getElem?, he, Precedes, hnone]
  | some e =>
    rw [dependencies_getD he, mem_dependencies]
    constructor
    · rintro ⟨⟨p, hp, hkey⟩, hne⟩
      obtain ⟨target, htarget, hk⟩ := Option.map_eq_some_iff.mp
        (List.getElem?_map ▸ (hm.byKey p.2.key i).mp hkey)
      exact ⟨hne, target, e.node, htarget, concept_of_entry he, p, hp, hk.symm⟩
    · rintro ⟨hne, target, n, htarget, hn, p, hp, hk⟩
      obtain rfl := Option.some.inj ((concept_of_entry he).symm.trans hn)
      refine ⟨⟨p, hp, (hm.byKey p.2.key i).mpr ?_⟩, hne⟩
      rw [List.getElem?_map, htarget, Option.map_some, hk]

/-- What is placed, and what is left over: an entry is placed after those that precede it, and one
that is left over is preceded by another one. -/
structure Divides (m : Model) (order stuck : List Nat) : Prop where
  perm : (order ++ stuck).Perm (List.range m.size)
  after : ∀ before j rest, order = before ++ j :: rest → ∀ i, m.Precedes i j → i ∈ before
  waits : ∀ j ∈ stuck, ∃ i ∈ stuck, m.Precedes i j

theorem divides_of_place {m : Model} (hm : m.Indexed) {order stuck : List Nat}
    (h : place (m.entries.mapIdx m.dependencies) ∅ (List.range m.size) = (order, stuck)) :
    m.Divides order stuck := by
  have hspec := place_spec (m.entries.mapIdx m.dependencies) ∅ (List.range m.size)
  have hopen := exists_open_dependency (m.entries.mapIdx m.dependencies) ∅ (List.range m.size)
  rw [h] at hspec hopen
  obtain ⟨hperm, hdeps⟩ := hspec
  refine ⟨hperm, ?_, ?_⟩
  · intro before j rest hsplit i hij
    rcases hdeps before j rest hsplit i ((mem_dependencies_iff hm).mpr hij) with hempty | hbefore
    · simp at hempty
    · exact hbefore
  · intro j hj
    obtain ⟨i, hi, _, horder⟩ := hopen j hj
    have hij := (mem_dependencies_iff hm).mp hi
    have hall := hperm.symm.subset (List.mem_range.mpr hij.lt_size.1)
    exact ⟨i, (List.mem_append.mp hall).resolve_left horder, hij⟩

theorem idxOf_lt_of_transGen {R : Nat → Nat → Prop} {is : List Nat} (hnodup : is.Nodup)
    (hafter : ∀ before j rest, is = before ++ j :: rest → ∀ i, R i j → i ∈ before) {i j : Nat}
    (h : TransGen R i j) (hj : j ∈ is) : i ∈ is ∧ is.idxOf i < is.idxOf j := by
  have hstep {i j : Nat} (hij : R i j) (hj : j ∈ is) : i ∈ is ∧ is.idxOf i < is.idxOf j := by
    obtain ⟨before, rest, rfl⟩ := List.append_of_mem hj
    have hi := hafter before j rest rfl i hij
    have hfirst : j ∉ before := fun hmem =>
      (List.nodup_append.mp hnodup).2.2 j hmem j List.mem_cons_self rfl
    have hlt := List.idxOf_lt_length_of_mem hi
    rw [List.idxOf_append_of_mem hi, List.idxOf_append_of_notMem hfirst]
    exact ⟨List.mem_append_left _ hi, by omega⟩
  induction h with
  | single hij => exact hstep hij hj
  | tail _ hjk ih =>
    obtain ⟨hmem, hlt⟩ := hstep hjk hj
    obtain ⟨hi, hlt'⟩ := ih hmem
    exact ⟨hi, hlt'.trans hlt⟩

section Division

variable {m : Model} {order stuck : List Nat} (h : m.Divides order stuck)
include h

theorem Divides.nodup : (order ++ stuck).Nodup := h.perm.nodup_iff.mpr List.nodup_range

theorem Divides.mem_stuck_of_cycle {i : Nat} (hi : TransGen m.Precedes i i) : i ∈ stuck := by
  obtain ⟨j, hij, _⟩ := Relation.TransGen.head'_iff.mp hi
  have hall := h.perm.symm.subset (List.mem_range.mpr hij.lt_size.1)
  refine (List.mem_append.mp hall).resolve_left fun horder => ?_
  have hlt := idxOf_lt_of_transGen (List.nodup_append.mp h.nodup).1 h.after hi horder
  exact Nat.lt_irrefl _ hlt.2

theorem Divides.stuck_eq_nil_iff : stuck = [] ↔ ∀ i, ¬TransGen m.Precedes i i := by
  constructor
  · rintro rfl i hi
    cases h.mem_stuck_of_cycle hi
  · intro hacyclic
    by_contra hne
    obtain ⟨i, _, hi⟩ := exists_cycle hne h.waits
    exact hacyclic i hi

end Division

theorem dependencyOrder_acyclic {m : Model} (hm : m.Indexed) {order : List Entry}
    (h : m.dependencyOrder = .ok order) : ∀ i, ¬TransGen m.Precedes i i := by
  obtain ⟨is, stuck, hplace, ⟨hnil, _⟩ | ⟨_, herror⟩⟩ := m.dependencyOrder_cases
  · exact (divides_of_place hm hplace).stuck_eq_nil_iff.mp hnil
  · cases herror.symm.trans h

theorem Arranges.follows {m : Model} (hm : m.Indexed) {is : List Nat} (h : m.Arranges is) :
    Follows (m.entries.mapIdx m.dependencies) ∅ is := by
  intro before j rest hsplit i hi
  exact .inr (h.after before j rest hsplit i ((mem_dependencies_iff hm).mp hi))

theorem divides_nil_iff {m : Model} {order : List Nat} :
    m.Divides order [] ↔ m.Arranges order := by
  constructor
  · intro h
    exact ⟨List.append_nil order ▸ h.perm, h.after⟩
  · intro h
    exact ⟨(List.append_nil order).symm ▸ h.perm, h.after, by simp⟩

theorem Arranges.entries {m : Model} {is : List Nat} (h : m.Arranges is) :
    (is.filterMap (m.entries[·]?)).map some = is.map (m.entries[·]?) ∧
      (is.filterMap (m.entries[·]?)).Perm m.entries.toList := by
  constructor
  · rw [List.map_filterMap]
    have hsome : ∀ i ∈ is, ∃ e, m.entries[i]? = some e := by
      intro i hi
      have hlt : i < m.entries.size := List.mem_range.mp (h.perm.subset hi)
      exact ⟨_, Array.getElem?_eq_getElem hlt⟩
    clear h
    induction is with
    | nil => rfl
    | cons i is ih =>
      obtain ⟨⟨e, he⟩, hsome⟩ := List.forall_mem_cons.mp hsome
      rw [List.map_cons, List.filterMap_cons, he, ← ih hsome]
      rfl
  · have hall := filterMap_getElem?_range m.entries.toList
    simp only [Array.length_toList, Array.getElem?_toList] at hall
    exact (h.perm.filterMap _).trans (.of_eq hall)

/-- There is an order of dependencies exactly if no entry refers to itself through others. It lists
all entries, each after the others that it refers to, and of all such lists it is the first by the
indexes of the entries. -/
theorem dependencyOrder_least {r : Registry} {m : Model} (hm : m.Reachable r) :
    ((∃ order, m.dependencyOrder = .ok order) ↔ ∀ i, ¬TransGen m.Precedes i i) ∧
      ∀ order, m.dependencyOrder = .ok order → order.Perm m.entries.toList ∧
        ∃ is, m.Arranges is ∧ order.map some = is.map (m.entries[·]?) ∧
          ∀ js, m.Arranges js → js = is ∨ is < js := by
  obtain ⟨is, stuck, hplace, hcases⟩ := m.dependencyOrder_cases
  have hdivides := divides_of_place hm.indexed hplace
  rw [← hdivides.stuck_eq_nil_iff]
  rcases hcases with ⟨rfl, hok⟩ | ⟨hne, herror⟩
  · refine ⟨iff_of_true ⟨_, hok⟩ rfl, ?_⟩
    intro order horder
    obtain rfl := Except.ok.inj (hok.symm.trans horder)
    have his := divides_nil_iff.mp hdivides
    refine ⟨his.entries.2, is, his, his.entries.1, fun js hjs => ?_⟩
    exact place_least List.pairwise_lt_range hplace hjs.perm (hjs.follows hm.indexed)
  · refine ⟨iff_of_false ?_ hne, ?_⟩
    · rintro ⟨order, hok⟩
      cases herror.symm.trans hok
    · intro order hok
      cases herror.symm.trans hok

/-- An entity comes after its module, and before a module that came later. -/
theorem dependencyOrder_least_small :
    ∃ (m : Model) (order : List Entry), m.Reachable Small.registry ∧
      m.concepts = [Small.entity "Common" "Person", Small.module "Common", Small.module "Other"] ∧
      m.dependencyOrder = .ok order ∧
      order.map (fun e => e.node.key) = ["Module Common", "Entity Common.Person", "Module Other"] := by
  have hempty : Model.Reachable Small.registry { registry := Small.registry } := .empty
  obtain ⟨m₁, h₁, hcs₁⟩ := hempty.exists_grown (n := Small.entity "Common" "Person") (by decide)
  obtain ⟨m₂, h₂, hcs₂⟩ := h₁.exists_grown (n := Small.module "Common") (by rw [hcs₁]; decide)
  obtain ⟨m, h, hcs⟩ := h₂.exists_grown (n := Small.module "Other") (by rw [hcs₂, hcs₁]; decide)
  rw [hcs₂, hcs₁] at hcs
  have hsize : m.size = 3 := by rw [← m.length_concepts, hcs]; rfl
  have hprecedes {i j : Nat} : m.Precedes i j ↔ i = 1 ∧ j = 0 := by
    constructor
    · exact forall_precedes (P := fun i j => i = 1 ∧ j = 0) hcs (by decide)
    · rintro ⟨rfl, rfl⟩
      rw [precedes_iff, hcs]
      decide
  obtain ⟨hsucceeds, hleast⟩ := dependencyOrder_least h
  have hfirst : m.Arranges [1, 0, 2] := by
    refine ⟨by rw [hsize]; decide, ?_⟩
    intro before j rest hsplit i hij
    obtain ⟨rfl, rfl⟩ := hprecedes.mp hij
    match before, hsplit with
    | a :: before, hsplit =>
      rw [← (List.cons.inj hsplit).1]
      exact List.mem_cons_self
  obtain ⟨order, horder⟩ :=
    hsucceeds.mpr ((divides_nil_iff.mpr hfirst).stuck_eq_nil_iff.mp rfl)
  obtain ⟨_, is, his, hentries, hmin⟩ := hleast order horder
  obtain rfl : [1, 0, 2] = is := by
    refine (hmin _ hfirst).resolve_right fun hlt => ?_
    have hnodup : is.Nodup := his.perm.nodup_iff.mpr List.nodup_range
    have hlength := his.perm.length_eq
    rw [hsize, List.length_range] at hlength
    match is, hlength with
    | [a, b, c], _ =>
      -- The entity does not come first, since its module is before it.
      have ha : a ≠ 0 := by
        rintro rfl
        cases his.after [] 0 [b, c] rfl 1 (hprecedes.mpr ⟨rfl, rfl⟩)
      simp only [List.cons_lt_cons_iff, List.nodup_cons, List.mem_cons, List.not_mem_nil,
        List.lt_irrefl, and_false, or_false, not_or] at hlt hnodup
      obtain ⟨⟨_, hac⟩, hbc, _⟩ := hnodup
      omega
  refine ⟨m, order, h, hcs, horder, ?_⟩
  have hkeys : (order.map fun e => e.node.key).map some =
      [1, 0, 2].map fun i => m.concepts[i]?.map Node.key := by
    have hmapped := congrArg (List.map (Option.map fun e => e.node.key)) hentries
    simpa only [List.map_map, Function.comp_def, Option.map_some, m.concepts_getElem?,
      Option.map_map] using hmapped
  rw [hcs] at hkeys
  exact (Option.some_injective _).list_map hkeys

end ConceptScript.Model
