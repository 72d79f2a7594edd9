import Mathlib.Data.List.Sort
import Mathlib.Data.Set.Subsingleton
import ConceptScript.Proofs.Model.Precedence
import ConceptScript.Proofs.Model.Serialization

namespace ConceptScript

open Relation (TransGen ReflTransGen)

namespace Model

section Reach

variable {dependencies : Array (List Nat)}

/-- A step from an index to one of its dependencies in the pool. -/
def Into (dependencies : Array (List Nat)) (pool : Std.HashSet Nat) (i d : Nat) : Prop :=
  d ∈ dependencies.getD i [] ∧ d ∈ pool

theorem exists_of_mem_reach {pool : Std.HashSet Nat} {frontier : List Nat} {j : Nat}
    (h : j ∈ reach dependencies pool frontier) :
    ∃ i ∈ frontier, i ∈ pool ∧ ReflTransGen (Into dependencies pool) i j := by
  induction pool, frontier using reach.induct dependencies with
  | case1 pool => simp [reach] at h
  | case2 pool i rest hi ih =>
    rw [reach, dif_pos hi] at h
    rcases List.mem_cons.mp h with rfl | h
    · exact ⟨j, List.mem_cons_self, hi, .refl⟩
    · obtain ⟨k, hk, hpool, hpath⟩ := ih h
      have hmem {k : Nat} (hk : k ∈ pool.erase i) : k ∈ pool := Std.HashSet.mem_of_mem_erase hk
      have hpath' : ReflTransGen (Into dependencies pool) k j :=
        hpath.lift id fun _ _ hstep => ⟨hstep.1, hmem hstep.2⟩
      rcases List.mem_append.mp hk with hk | hk
      · exact ⟨i, List.mem_cons_self, hi, .head ⟨hk, hmem hpool⟩ hpath'⟩
      · exact ⟨k, List.mem_cons_of_mem i hk, hmem hpool, hpath'⟩
  | case3 pool i rest hi ih =>
    rw [reach, dif_neg hi] at h
    obtain ⟨k, hk, hpath⟩ := ih h
    exact ⟨k, List.mem_cons_of_mem i hk, hpath⟩

theorem mem_reach {pool : Std.HashSet Nat} {frontier : List Nat} {i j : Nat} (hi : i ∈ frontier)
    (hpool : i ∈ pool) (h : ReflTransGen (Into dependencies pool) i j) :
    j ∈ reach dependencies pool frontier := by
  induction pool, frontier using reach.induct dependencies generalizing i j with
  | case1 pool => cases hi
  | case2 pool first rest hfirst ih =>
    rw [reach, dif_pos hfirst, List.mem_cons]
    -- Behind its last visit to the first index, a path stays in the rest of the pool.
    have hrest {k : Nat} (hk : k ∈ pool) (hne : k ≠ first) : k ∈ pool.erase first :=
      Std.HashSet.mem_erase.mpr ⟨by simpa using Ne.symm hne, hk⟩
    have hlast : j = first ∨ ∃ k ∈ dependencies.getD first [] ++ rest, k ∈ pool.erase first ∧
        ReflTransGen (Into dependencies (pool.erase first)) k j := by
      induction h with
      | refl =>
        by_cases he : i = first
        · exact .inl he
        · have hmem := (List.mem_cons.mp hi).resolve_left he
          exact .inr ⟨i, List.mem_append_right _ hmem, hrest hpool he, .refl⟩
      | @tail j k _ hstep ihpath =>
        by_cases he : k = first
        · exact .inl he
        · rcases ihpath with rfl | ⟨start, hstart, hin, hpath⟩
          · exact .inr ⟨k, List.mem_append_left _ hstep.1, hrest hstep.2 he, .refl⟩
          · exact .inr ⟨start, hstart, hin, hpath.tail ⟨hstep.1, hrest hstep.2 he⟩⟩
    rcases hlast with he | ⟨k, hk, hin, hpath⟩
    · exact .inl he
    · exact .inr (ih hk hin hpath)
  | case3 pool first rest hfirst ih =>
    rw [reach, dif_neg hfirst]
    have hne : i ≠ first := by
      rintro rfl
      exact hfirst hpool
    exact ih ((List.mem_cons.mp hi).resolve_left hne) hpool h

def joins (dependencies : Array (List Nat)) (stuck : List Nat) (i j : Nat) : Bool :=
  let pool := Std.HashSet.ofList stuck
  let reached i := Std.HashSet.ofList (reach dependencies pool (dependencies.getD i []))
  i == j || ((reached i).contains j && (reached j).contains i)

def groupOf (dependencies : Array (List Nat)) (stuck : List Nat) (i : Nat) : List Nat :=
  stuck.filter (joins dependencies stuck i)

/-- A group of two or more is listed at its first index. -/
theorem cycles_eq (dependencies : Array (List Nat)) (stuck : List Nat) :
    cycles dependencies stuck = (stuck.filter fun i =>
      (groupOf dependencies stuck i).length > 1 &&
        (groupOf dependencies stuck i).head? == some i).map (groupOf dependencies stuck) := by
  simp only [cycles, List.filter_map, List.map_map, Function.comp_def, List.map_id_fun', id]
  rfl

end Reach

/-- Each of the entries leads to the other through references, or they are one. -/
def Connected (m : Model) (i j : Nat) : Prop :=
  ReflTransGen m.Precedes i j ∧ ReflTransGen m.Precedes j i

def component (m : Model) (i : Nat) : Set Nat := { j | m.Connected i j }

theorem Connected.refl (m : Model) (i : Nat) : m.Connected i i := ⟨.refl, .refl⟩

theorem Connected.symm {m : Model} {i j : Nat} (h : m.Connected i j) : m.Connected j i :=
  ⟨h.2, h.1⟩

theorem Connected.trans {m : Model} {i j k : Nat} (hij : m.Connected i j) (hjk : m.Connected j k) :
    m.Connected i k :=
  ⟨hij.1.trans hjk.1, hjk.2.trans hij.2⟩

theorem connected_iff {m : Model} {i j : Nat} :
    m.Connected i j ↔ i = j ∨ TransGen m.Precedes i j ∧ TransGen m.Precedes j i := by
  unfold Connected
  rw [Relation.reflTransGen_iff_eq_or_transGen, Relation.reflTransGen_iff_eq_or_transGen]
  constructor
  · rintro ⟨rfl | hij, hji⟩
    · exact .inl rfl
    · rcases hji with rfl | hji
      · exact .inl rfl
      · exact .inr ⟨hij, hji⟩
  · rintro (rfl | ⟨hij, hji⟩)
    · exact ⟨.inl rfl, .inl rfl⟩
    · exact ⟨.inr hij, .inr hji⟩

theorem cycle_of_nontrivial {m : Model} {i : Nat} (h : (m.component i).Nontrivial) :
    TransGen m.Precedes i i := by
  obtain ⟨j, hj, hne⟩ := h.exists_ne i
  rcases connected_iff.mp hj with rfl | ⟨hij, hji⟩
  · exact absurd rfl hne
  · exact hij.trans hji

theorem nontrivial_of_cycle {m : Model} {i : Nat} (h : TransGen m.Precedes i i) :
    (m.component i).Nontrivial := by
  obtain ⟨j, hij, hji⟩ := Relation.TransGen.head'_iff.mp h
  exact ⟨i, .refl m i, j, ⟨.single hij, hji⟩, hij.1⟩

section Division

variable {m : Model} {order stuck : List Nat} (h : m.Divides order stuck)
include h

theorem Divides.mem_stuck_of_precedes {i j : Nat} (hi : i ∈ stuck) (hij : m.Precedes i j) :
    j ∈ stuck := by
  have hall := h.perm.symm.subset (List.mem_range.mpr hij.lt_size.2)
  refine (List.mem_append.mp hall).resolve_left fun hj => ?_
  obtain ⟨before, rest, rfl⟩ := List.append_of_mem hj
  have hbefore := h.after before j rest rfl i hij
  exact (List.nodup_append.mp h.nodup).2.2 i (List.mem_append_left _ hbefore) i hi rfl

theorem Divides.mem_stuck_of_path {i j : Nat} (hi : i ∈ stuck)
    (hij : ReflTransGen m.Precedes i j) : j ∈ stuck := by
  induction hij with
  | refl => exact hi
  | tail _ hstep ih => exact h.mem_stuck_of_precedes ih hstep

variable (hm : m.Indexed)
include hm

/-- Steps into dependencies that are left over are steps of precedence, taken backwards. -/
theorem Divides.path_iff {i j : Nat} (hj : j ∈ stuck) :
    ReflTransGen (Into (m.entries.mapIdx m.dependencies) (Std.HashSet.ofList stuck)) i j ↔
      ReflTransGen m.Precedes j i := by
  constructor
  · intro hpath
    clear hj
    induction hpath with
    | refl => exact .refl
    | tail _ hstep ih => exact .head ((mem_dependencies_iff hm).mp hstep.1) ih
  · intro hpath
    induction hpath with
    | refl => exact .refl
    | tail hjb hstep ih =>
      refine .head ⟨(mem_dependencies_iff hm).mpr hstep, ?_⟩ ih
      simpa using h.mem_stuck_of_path hj hjb

/-- Among those that are left over, the search finds all that lead to an entry. -/
theorem Divides.mem_reach_iff {i j : Nat} (hj : j ∈ stuck) :
    j ∈ reach (m.entries.mapIdx m.dependencies) (Std.HashSet.ofList stuck)
      ((m.entries.mapIdx m.dependencies).getD i []) ↔ TransGen m.Precedes j i := by
  rw [Relation.TransGen.tail'_iff]
  constructor
  · intro hreach
    obtain ⟨d, hd, _, hpath⟩ := exists_of_mem_reach hreach
    exact ⟨d, (h.path_iff hm hj).mp hpath, (mem_dependencies_iff hm).mp hd⟩
  · rintro ⟨d, hjd, hdi⟩
    refine mem_reach ((mem_dependencies_iff hm).mpr hdi) ?_ ((h.path_iff hm hj).mpr hjd)
    simpa using h.mem_stuck_of_path hj hjd

theorem Divides.joins_iff {i j : Nat} (hi : i ∈ stuck) (hj : j ∈ stuck) :
    joins (m.entries.mapIdx m.dependencies) stuck i j = true ↔ m.Connected i j := by
  rw [connected_iff]
  simp only [joins, Bool.or_eq_true, beq_iff_eq, Bool.and_eq_true, Std.HashSet.contains_ofList,
    List.contains_iff_mem, h.mem_reach_iff hm hi, h.mem_reach_iff hm hj]
  rw [and_comm]

/-- The group of an entry that is left over is its component. -/
theorem Divides.mem_groupOf_iff {i j : Nat} (hi : i ∈ stuck) :
    j ∈ groupOf (m.entries.mapIdx m.dependencies) stuck i ↔ j ∈ m.component i := by
  rw [groupOf, List.mem_filter]
  constructor
  · rintro ⟨hj, hjoins⟩
    exact (h.joins_iff hm hi hj).mp hjoins
  · intro hij
    have hj := h.mem_stuck_of_path hi hij.1
    exact ⟨hj, (h.joins_iff hm hi hj).mpr hij⟩

theorem Divides.groupOf_eq {i j : Nat} (hi : i ∈ stuck) (hij : m.Connected i j) :
    groupOf (m.entries.mapIdx m.dependencies) stuck i =
      groupOf (m.entries.mapIdx m.dependencies) stuck j := by
  have hj := h.mem_stuck_of_path hi hij.1
  apply List.filter_congr
  intro k hk
  rw [Bool.eq_iff_iff, h.joins_iff hm hi hk, h.joins_iff hm hj hk]
  exact ⟨hij.symm.trans, hij.trans⟩

omit hm in
theorem Divides.nodup_groupOf (i : Nat) :
    (groupOf (m.entries.mapIdx m.dependencies) stuck i).Nodup :=
  (List.nodup_append.mp h.nodup).2.1.filter _

theorem Divides.length_groupOf_iff {i : Nat} (hi : i ∈ stuck) :
    1 < (groupOf (m.entries.mapIdx m.dependencies) stuck i).length ↔
      (m.component i).Nontrivial := by
  rw [← List.toFinset_card_of_nodup (h.nodup_groupOf i), Finset.one_lt_card]
  simp only [List.mem_toFinset, h.mem_groupOf_iff hm hi]
  rfl

theorem Divides.mem_cycles_iff {group : List Nat} :
    group ∈ cycles (m.entries.mapIdx m.dependencies) stuck ↔ ∃ i, (m.component i).Nontrivial ∧
      groupOf (m.entries.mapIdx m.dependencies) stuck i = group := by
  simp only [cycles_eq, List.mem_map, List.mem_filter, Bool.and_eq_true, decide_eq_true_eq,
    beq_iff_eq]
  constructor
  · rintro ⟨i, ⟨hi, hlength, _⟩, hgroup⟩
    exact ⟨i, (h.length_groupOf_iff hm hi).mp hlength, hgroup⟩
  · rintro ⟨i, hnontrivial, rfl⟩
    have hi := h.mem_stuck_of_cycle (cycle_of_nontrivial hnontrivial)
    have hlength := (h.length_groupOf_iff hm hi).mpr hnontrivial
    -- The group is the same for each of its entries, and stands at the first one.
    obtain ⟨first, rest, hgroup⟩ := List.exists_cons_of_length_pos (Nat.zero_lt_of_lt hlength)
    have hfirst : m.Connected i first := (h.mem_groupOf_iff hm hi).mp (by simp [hgroup])
    have heq := h.groupOf_eq hm hi hfirst
    refine ⟨first, ⟨h.mem_stuck_of_path hi hfirst.1, heq ▸ hlength, ?_⟩, heq.symm⟩
    rw [← heq, hgroup]
    rfl

omit hm in
theorem Divides.nodup_cycles : (cycles (m.entries.mapIdx m.dependencies) stuck).Nodup := by
  rw [cycles_eq]
  refine List.Nodup.map_on ?_ ((List.nodup_append.mp h.nodup).2.1.filter _)
  intro i hi j hj heq
  simp only [List.mem_filter, Bool.and_eq_true, beq_iff_eq] at hi hj
  exact Option.some.inj (hi.2.2.symm.trans (heq ▸ hj.2.2))

end Division

/-- The keys of a strongly connected component with more than one entry, in ascending order. -/
def IsKnot (m : Model) (keys : List String) : Prop :=
  keys.Pairwise (· < ·) ∧ ∃ i, (m.component i).Nontrivial ∧
    ∀ k, k ∈ keys ↔ ∃ j ∈ m.component i, m.concepts[j]?.map Node.key = some k

def keysOf (m : Model) (group : List Nat) : List String :=
  (group.map m.keyAt).mergeSort fun a b => decide (a ≤ b)

section Keys

variable {m : Model} (hm : m.Indexed)
include hm

theorem Indexed.keyAt_eq {i : Nat} (hi : i < m.size) :
    m.concepts[i]?.map Node.key = some (m.keyAt i) := by
  have he : m.entries[i]? = some m.entries[i] := Array.getElem?_eq_getElem hi
  rw [concept_of_entry he, keyAt, he, Option.map_some, Option.map_some, Option.getD_some,
    hm.key_eq_of_getElem? he]

theorem Indexed.index_unique {i j : Nat} {k : String} (hi : m.concepts[i]?.map Node.key = some k)
    (hj : m.concepts[j]?.map Node.key = some k) : i = j := by
  rw [← List.getElem?_map, ← hm.byKey] at hi hj
  exact Option.some.inj (hi.symm.trans hj)

theorem Indexed.mem_keysOf_iff {group : List Nat} (hgroup : ∀ i ∈ group, i < m.size) {k : String} :
    k ∈ m.keysOf group ↔ ∃ i ∈ group, m.concepts[i]?.map Node.key = some k := by
  rw [keysOf, (List.mergeSort_perm _ _).mem_iff, List.mem_map]
  refine exists_congr fun i => and_congr_right fun hi => ?_
  rw [hm.keyAt_eq (hgroup i hi), Option.some.injEq]

theorem Indexed.pairwise_keysOf {group : List Nat} (hgroup : ∀ i ∈ group, i < m.size)
    (hnodup : group.Nodup) : (m.keysOf group).Pairwise (· < ·) := by
  have hkeys : (group.map m.keyAt).Nodup := by
    refine List.Nodup.map_on (fun i hi j hj heq => ?_) hnodup
    exact hm.index_unique (hm.keyAt_eq (hgroup i hi)) (heq ▸ hm.keyAt_eq (hgroup j hj))
  have hdistinct : (m.keysOf group).Nodup := (List.mergeSort_perm _ _).nodup_iff.mpr hkeys
  refine ((pairwise_sorted _).and hdistinct).imp fun hab => ?_
  by_contra hlt
  exact hab.2 (String.le_antisymm hab.1 (String.not_lt.mp hlt))

end Keys

theorem pairwise_sortedGroups {groups : List (List String)} (h : groups.Nodup) :
    (groups.mergeSort fun a b => !decide (b < a)).Pairwise (· < ·) := by
  have htrans (a b c : List String) (hab : (!decide (b < a)) = true)
      (hbc : (!decide (c < b)) = true) : (!decide (c < a)) = true := by
    simp only [Bool.not_eq_true', decide_eq_false_iff_not] at hab hbc ⊢
    exact List.not_lt.mpr (List.le_trans (List.not_lt.mp hab) (List.not_lt.mp hbc))
  have htotal (a b : List String) : (!decide (b < a) || !decide (a < b)) = true := by
    rcases List.le_total a b with hab | hba
    · simp [List.not_lt.mpr hab]
    · simp [List.not_lt.mpr hba]
  have hdistinct := (List.mergeSort_perm groups fun a b => !decide (b < a)).nodup_iff.mpr h
  refine ((List.pairwise_mergeSort htrans htotal groups).and hdistinct).imp ?_
  rintro a b ⟨hab, hne⟩
  by_contra hlt
  have hle : ¬b < a := by simpa using hab
  exact hne (List.le_antisymm (List.not_lt.mp hle) (List.not_lt.mp hlt))

section Knots

variable {m : Model} {order stuck : List Nat} (h : m.Divides order stuck) (hm : m.Indexed)
include h hm

omit hm in
theorem Divides.lt_size_of_mem_groupOf {i j : Nat}
    (hj : j ∈ groupOf (m.entries.mapIdx m.dependencies) stuck i) : j < m.size :=
  List.mem_range.mp (h.perm.subset (List.mem_append_right order (List.mem_of_mem_filter hj)))

theorem Divides.mem_keysOf_iff {i : Nat} (hi : (m.component i).Nontrivial) {k : String} :
    k ∈ m.keysOf (groupOf (m.entries.mapIdx m.dependencies) stuck i) ↔
      ∃ j ∈ m.component i, m.concepts[j]?.map Node.key = some k := by
  have hstuck := h.mem_stuck_of_cycle (cycle_of_nontrivial hi)
  rw [hm.mem_keysOf_iff fun j hj => h.lt_size_of_mem_groupOf hj]
  simp only [h.mem_groupOf_iff hm hstuck]

theorem Divides.pairwise_keysOf (i : Nat) :
    (m.keysOf (groupOf (m.entries.mapIdx m.dependencies) stuck i)).Pairwise (· < ·) :=
  hm.pairwise_keysOf (fun _ hj => h.lt_size_of_mem_groupOf hj) (h.nodup_groupOf i)

theorem Divides.mem_reported_iff {keys : List String} :
    keys ∈ (cycles (m.entries.mapIdx m.dependencies) stuck).map m.keysOf ↔ m.IsKnot keys := by
  simp only [List.mem_map, h.mem_cycles_iff hm]
  constructor
  · rintro ⟨_, ⟨i, hi, rfl⟩, rfl⟩
    exact ⟨h.pairwise_keysOf hm i, i, hi, fun k => h.mem_keysOf_iff hm hi⟩
  · rintro ⟨hsorted, i, hi, hkeys⟩
    refine ⟨_, ⟨i, hi, rfl⟩, ?_⟩
    refine (h.pairwise_keysOf hm i).eq_of_mem_iff hsorted fun k => ?_
    rw [h.mem_keysOf_iff hm hi, hkeys]

theorem Divides.nodup_reported :
    ((cycles (m.entries.mapIdx m.dependencies) stuck).map m.keysOf).Nodup := by
  refine List.Nodup.map_on ?_ h.nodup_cycles
  intro group hgroup group' hgroup' heq
  obtain ⟨i, hi, rfl⟩ := (h.mem_cycles_iff hm).mp hgroup
  obtain ⟨j, hj, rfl⟩ := (h.mem_cycles_iff hm).mp hgroup'
  -- The key of the one entry is found in the component of the other, and there is one such entry.
  have hstuck := h.mem_stuck_of_cycle (cycle_of_nontrivial hi)
  have hsize : i < m.size := List.mem_range.mp (h.perm.subset (List.mem_append_right order hstuck))
  have hkey := (h.mem_keysOf_iff hm hi).mpr ⟨i, .refl m i, hm.keyAt_eq hsize⟩
  rw [heq, h.mem_keysOf_iff hm hj] at hkey
  obtain ⟨i', hi', hkey'⟩ := hkey
  obtain rfl := hm.index_unique (hm.keyAt_eq hsize) hkey'
  exact h.groupOf_eq hm hstuck hi'.symm

end Knots

/-- The report of a model without an order of dependencies: the strongly connected components with
more than one entry, by their keys. There is one at least, and the message names the first. -/
theorem cycles_reported {r : Registry} {m : Model} {d : Diagnostic} (hm : m.Reachable r)
    (h : m.dependencyOrder = .error d) :
    ∃ first rest, (first :: rest).Pairwise (· < ·) ∧
      (∀ keys, keys ∈ first :: rest ↔ m.IsKnot keys) ∧
      d = {
        code := .dependencyCycle
        message := "concepts reference each other in a cycle: " ++ ", ".intercalate first
        causes := "break the cycle by removing one of the references"
        details := (first :: rest).map fun keys => " <-> ".intercalate keys } := by
  obtain ⟨is, stuck, hplace, ⟨_, hok⟩ | ⟨hne, herror⟩⟩ := m.dependencyOrder_cases
  · cases hok.symm.trans h
  have hdivides := divides_of_place hm.indexed hplace
  obtain rfl := Except.error.inj (herror.symm.trans h)
  have hmem (keys : List String) :
      keys ∈ ((cycles (m.entries.mapIdx m.dependencies) stuck).map m.keysOf).mergeSort
        (fun a b => !decide (b < a)) ↔ m.IsKnot keys := by
    rw [(List.mergeSort_perm _ _).mem_iff, hdivides.mem_reported_iff hm.indexed]
  have hsorted := pairwise_sortedGroups (hdivides.nodup_reported hm.indexed)
  -- Something is left over, so there is a cycle, and its component is in the list.
  obtain ⟨i, _, hi⟩ := exists_cycle hne hdivides.waits
  have hknot := (hdivides.mem_reported_iff hm.indexed).mp (List.mem_map_of_mem
    ((hdivides.mem_cycles_iff hm.indexed).mpr ⟨i, nontrivial_of_cycle hi, rfl⟩))
  obtain ⟨first, rest, hgroups⟩ := List.exists_cons_of_ne_nil
    (List.ne_nil_of_mem ((hmem _).mpr hknot))
  rw [hgroups] at hmem hsorted
  refine ⟨first, rest, hsorted, hmem, ?_⟩
  change cycleDiagnostic (((cycles _ stuck).map m.keysOf).mergeSort _) = _
  rw [hgroups]
  rfl

end Model

-- A language of links that lead to one another.

namespace Links

def declared : List Declaration := [
  ({ name := "Link" } : Declaration).withKey "Name" .identifier
    |>.withMember "Next" (.reference (.concept "Link"))]

def linkType : ConceptType :=
  Small.plain "Link" [⟨"Name", .identifier, true, false⟩,
    ⟨"Next", .reference (.concept "Link"), false, false⟩] 1 0

def registry : Registry := ⟨[linkType]⟩

theorem build_declared : Registry.build declared = .ok registry := by decide +kernel

def link (name next : String) : Node :=
  .mk linkType [some (.text name), some (.reference (.mk linkType [some (.text next), none]))]

open Model

variable {m : Model} (hcs : m.concepts = [link "B" "A", link "A" "B", link "C" "A"])
include hcs

theorem lt_two_of_precedes {i j : Nat} (hij : m.Precedes i j) : i < 2 :=
  forall_precedes (P := fun i _ => i < 2) hcs (by decide) hij

theorem precedes_each_other : m.Precedes 0 1 ∧ m.Precedes 1 0 := by
  rw [precedes_iff, precedes_iff, hcs]
  decide

theorem cycle : TransGen m.Precedes 0 0 :=
  .tail (.single (precedes_each_other hcs).1) (precedes_each_other hcs).2

theorem mem_component_iff {i j : Nat} (hi : (m.component i).Nontrivial) :
    j ∈ m.component i ↔ j < 2 := by
  obtain ⟨h01, h10⟩ := precedes_each_other hcs
  have hzero : ∀ k < 2, m.Connected 0 k
    | 0, _ => .refl m 0
    | 1, _ => ⟨.single h01, .single h10⟩
  have hlt {k : Nat} (hk : TransGen m.Precedes k i) : k < 2 := by
    obtain ⟨_, hstep, _⟩ := Relation.TransGen.head'_iff.mp hk
    exact lt_two_of_precedes hcs hstep
  have hi' := hlt (cycle_of_nontrivial hi)
  constructor
  · intro hj
    rcases connected_iff.mp hj with rfl | ⟨_, hji⟩
    · exact hi'
    · exact hlt hji
  · intro hj
    exact (hzero i hi').symm.trans (hzero j hj)

theorem exists_key_iff {i : Nat} (hi : (m.component i).Nontrivial) (k : String) :
    (∃ j ∈ m.component i, m.concepts[j]?.map Node.key = some k) ↔ k ∈ ["Link A", "Link B"] := by
  simp only [mem_component_iff hcs hi, hcs]
  constructor
  · rintro ⟨j, hj, hk⟩
    match j, hj with
    | 0, _ =>
      obtain rfl : "Link B" = k := Option.some.inj hk
      decide
    | 1, _ =>
      obtain rfl : "Link A" = k := Option.some.inj hk
      decide
  · intro hk
    simp only [List.mem_cons, List.not_mem_nil, or_false] at hk
    rcases hk with rfl | rfl
    · exact ⟨1, by decide, rfl⟩
    · exact ⟨0, by decide, rfl⟩

theorem isKnot_iff {keys : List String} : m.IsKnot keys ↔ keys = ["Link A", "Link B"] := by
  constructor
  · rintro ⟨hsorted, i, hi, hkeys⟩
    exact hsorted.eq_of_mem_iff (by decide) fun k =>
      (hkeys k).trans (exists_key_iff hcs hi k)
  · rintro rfl
    have hi := nontrivial_of_cycle (cycle hcs)
    exact ⟨by decide, 0, hi, fun k => (exists_key_iff hcs hi k).symm⟩

end Links

namespace Model

/-- Two links lead to one another, and a third one to them. -/
theorem cycles_reported_links :
    Registry.build Links.declared = .ok Links.registry ∧
      ∃ (m : Model) (d : Diagnostic), m.Reachable Links.registry ∧
        m.concepts = [Links.link "B" "A", Links.link "A" "B", Links.link "C" "A"] ∧
        m.dependencyOrder = .error d ∧
        d.message = "concepts reference each other in a cycle: Link A, Link B" ∧
        d.details = ["Link A <-> Link B"] := by
  refine ⟨Links.build_declared, ?_⟩
  have hempty : Model.Reachable Links.registry { registry := Links.registry } := .empty
  obtain ⟨m₁, h₁, hcs₁⟩ := hempty.exists_grown (n := Links.link "B" "A") (by decide)
  obtain ⟨m₂, h₂, hcs₂⟩ := h₁.exists_grown (n := Links.link "A" "B") (by rw [hcs₁]; decide)
  obtain ⟨m, h, hcs⟩ := h₂.exists_grown (n := Links.link "C" "A") (by rw [hcs₂, hcs₁]; decide)
  rw [hcs₂, hcs₁] at hcs
  cases hd : m.dependencyOrder with
  | ok order => exact absurd (Links.cycle hcs) (dependencyOrder_acyclic h.indexed hd 0)
  | error d =>
    obtain ⟨first, rest, hsorted, hknots, rfl⟩ := cycles_reported h hd
    have hfirst := (Links.isKnot_iff hcs).mp ((hknots first).mp List.mem_cons_self)
    have hrest : rest = [] := by
      refine List.eq_nil_iff_forall_not_mem.mpr fun keys hkeys => ?_
      have hlater :=
        (Links.isKnot_iff hcs).mp ((hknots keys).mp (List.mem_cons_of_mem first hkeys))
      have hlt := List.rel_of_pairwise_cons hsorted hkeys
      rw [hfirst, hlater] at hlt
      exact List.lt_irrefl _ hlt
    subst hfirst hrest
    exact ⟨m, _, h, hcs, hd, by decide, by decide⟩

end Model

end ConceptScript
