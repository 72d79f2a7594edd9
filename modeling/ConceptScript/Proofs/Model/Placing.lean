import Mathlib.Data.List.Perm.Basic
import Mathlib.Data.List.Sort
import ConceptScript.Model.Order
import ConceptScript.Proofs.Model.Indexes

namespace ConceptScript.Model

/-- Takes, as long as there is one, the first of the remaining indexes whose dependencies are
all placed. The second list holds what is left over. -/
def place (dependencies : Array (List Nat)) (placed : Std.HashSet Nat) (remaining : List Nat) :
    List Nat × List Nat :=
  match _h : remaining.find? fun i => (dependencies.getD i []).all placed.contains with
  | none => ([], remaining)
  | some i =>
    let (order, stuck) := place dependencies (placed.insert i) (remaining.erase i)
    (i :: order, stuck)
termination_by remaining.length
decreasing_by
  have hm := List.mem_of_find?_eq_some _h
  have := List.length_pos_of_mem hm
  rw [List.length_erase_of_mem hm]
  omega

section Place

variable {dependencies : Array (List Nat)} {placed : Std.HashSet Nat} {remaining : List Nat}

def isReady (dependencies : Array (List Nat)) (placed : Std.HashSet Nat) (i : Nat) : Bool :=
  (dependencies.getD i []).all placed.contains

theorem place_of_none (h : remaining.find? (isReady dependencies placed) = none) :
    place dependencies placed remaining = ([], remaining) := by
  rw [place]
  split
  · rfl
  · next hf => exact absurd (hf.symm.trans h) (by simp)

theorem place_of_some {i : Nat} (h : remaining.find? (isReady dependencies placed) = some i) :
    place dependencies placed remaining =
      (i :: (place dependencies (placed.insert i) (remaining.erase i)).1,
        (place dependencies (placed.insert i) (remaining.erase i)).2) := by
  rw [place]
  split
  · next hf => exact absurd (hf.symm.trans h) (by simp)
  · next j hf =>
    obtain rfl : j = i := Option.some.inj (hf.symm.trans h)
    rfl

/-- Nothing is lost, and each index comes after its dependencies. -/
theorem place_spec (dependencies : Array (List Nat)) (placed : Std.HashSet Nat)
    (remaining : List Nat) :
    let (order, stuck) := place dependencies placed remaining
    (order ++ stuck).Perm remaining ∧ ∀ before i after, order = before ++ i :: after →
      ∀ d ∈ dependencies.getD i [], d ∈ placed ∨ d ∈ before := by
  induction hn : remaining.length using Nat.strongRecOn generalizing placed remaining with
  | ind n ih =>
    cases hf : remaining.find? (isReady dependencies placed) with
    | none =>
      rw [place_of_none hf]
      exact ⟨.refl _, by simp⟩
    | some j =>
      have hj := List.mem_of_find?_eq_some hf
      have hready : isReady dependencies placed j = true := List.find?_some hf
      have hlt : (remaining.erase j).length < n := by
        have := List.length_pos_of_mem hj
        rw [List.length_erase_of_mem hj]
        omega
      obtain ⟨hperm, hdeps⟩ := ih _ hlt (placed.insert j) (remaining.erase j) rfl
      rw [place_of_some hf]
      refine ⟨(hperm.cons j).trans (List.perm_cons_erase hj).symm, ?_⟩
      intro before i after horder d hd
      cases before with
      | nil =>
        obtain ⟨rfl, _⟩ := List.cons.inj horder
        exact .inl (Std.HashSet.mem_iff_contains.mpr (List.all_eq_true.mp hready d hd))
      | cons k before =>
        obtain ⟨rfl, htail⟩ := List.cons.inj horder
        rcases hdeps before i after htail d hd with hp | hb
        · rcases Std.HashSet.mem_insert.mp hp with hj | hp
          · exact .inr (List.mem_cons.mpr (.inl (eq_of_beq hj).symm))
          · exact .inl hp
        · exact .inr (List.mem_cons_of_mem _ hb)

/-- Where every index depends on earlier ones only, they are placed as they come. -/
theorem place_range (placed : Std.HashSet Nat) (start count : Nat)
    (hplaced : ∀ i < start, i ∈ placed)
    (hdeps : ∀ i, ∀ d ∈ dependencies.getD i [], d < i) :
    place dependencies placed (List.range' start count) = (List.range' start count, []) := by
  induction count generalizing start placed with
  | zero => exact place_of_none rfl
  | succ count ih =>
    have hready : isReady dependencies placed start = true :=
      List.all_eq_true.mpr fun d hd =>
        Std.HashSet.mem_iff_contains.mp (hplaced d (hdeps start d hd))
    have hfirst : (List.range' start (count + 1)).find? (isReady dependencies placed) =
        some start := by
      rw [List.range'_succ, List.find?_cons, hready]
    have hrest : ∀ i < start + 1, i ∈ placed.insert start := by
      intro i hi
      rcases Nat.lt_succ_iff_lt_or_eq.mp hi with hlt | rfl
      · exact Std.HashSet.mem_insert.mpr (.inr (hplaced i hlt))
      · exact Std.HashSet.mem_insert_self
    rw [place_of_some hfirst, List.range'_succ, List.erase_cons_head, ih _ _ hrest]

end Place

/-- The number of dependencies that are not placed. -/
def openCount (placed : Std.HashSet Nat) (ds : List Nat) : Nat :=
  (ds.eraseDups.filter fun d => !placed.contains d).length

section Open

variable {placed : Std.HashSet Nat} {ds : List Nat} {i : Nat}

theorem openCount_eq_zero : openCount placed ds = 0 ↔ ∀ d ∈ ds, d ∈ placed := by
  simp [openCount, List.filter_eq_nil_iff, List.mem_eraseDups]

theorem isReady_eq_true {dependencies : Array (List Nat)} :
    isReady dependencies placed i = true ↔ openCount placed (dependencies.getD i []) = 0 := by
  rw [openCount_eq_zero, isReady, List.all_eq_true]
  rfl

theorem openCount_empty (ds : List Nat) : openCount ∅ ds = ds.eraseDups.length := by
  simp [openCount]

theorem openCount_insert_of_not_mem (h : i ∉ ds) :
    openCount (placed.insert i) ds = openCount placed ds := by
  unfold openCount
  congr 1
  refine List.filter_congr fun d hd => ?_
  have hne : i ≠ d := by
    rintro rfl
    exact h (List.mem_eraseDups.mp hd)
  simp [hne]

theorem openCount_insert_of_mem (h : i ∈ ds) (hi : i ∉ placed) :
    openCount (placed.insert i) ds + 1 = openCount placed ds := by
  have hmem : i ∈ ds.eraseDups.filter fun d => !placed.contains d := by
    simpa [List.mem_eraseDups, h] using hi
  have hnodup : (ds.eraseDups.filter fun d => !placed.contains d).Nodup :=
    (nodup_eraseDups ds).filter _
  have hrest : ds.eraseDups.filter (fun d => !(placed.insert i).contains d) =
      (ds.eraseDups.filter fun d => !placed.contains d).erase i := by
    rw [hnodup.erase_eq_filter, List.filter_filter]
    refine List.filter_congr fun d _ => ?_
    simp [Std.HashSet.contains_insert, Bool.beq_comm, bne]
  rw [openCount, hrest, List.length_erase_of_mem hmem]
  exact Nat.sub_add_cancel (List.length_pos_of_mem hmem)

end Open

namespace Backlog

variable {b : Backlog} {j k : Nat}

theorem mem_push {js : List Nat} : k ∈ push j js ↔ k = j ∨ k ∈ js := by
  induction js with
  | nil => simp [push]
  | cons i js ih =>
    unfold push
    split
    · simp
    · rw [List.mem_cons, ih, List.mem_cons, or_left_comm]

theorem pairwise_push {js : List Nat} (h : js.Pairwise (· < ·)) (hj : j ∉ js) :
    (push j js).Pairwise (· < ·) := by
  induction js with
  | nil => exact List.pairwise_singleton _ _
  | cons i js ih =>
    rw [List.mem_cons, not_or] at hj
    obtain ⟨hi, hjs⟩ := List.pairwise_cons.mp h
    unfold push
    split
    · next hle =>
      have hlt : j < i := Nat.lt_of_le_of_ne hle hj.1
      exact List.pairwise_cons.mpr
        ⟨List.forall_mem_cons.mpr ⟨hlt, fun k hk => Nat.lt_trans hlt (hi k hk)⟩, h⟩
    · next hle =>
      refine List.pairwise_cons.mpr ⟨fun k hk => ?_, ih hjs hj.2⟩
      rcases mem_push.mp hk with rfl | hk
      · exact Nat.lt_of_not_le hle
      · exact hi k hk

theorem release_waiting : (b.release j).waiting[k]? =
    if k = j then b.waiting[k]?.map (· - 1) else b.waiting[k]? := by
  simp only [release, Array.getElem?_setIfInBounds, Array.getD_eq_getD_getElem?, eq_comm (a := j)]
  split
  · next h =>
    subst h
    split
    · next hk => simp [hk]
    · next hk => simp [hk]
  · rfl

theorem mem_release_ready : k ∈ (b.release j).ready ↔
    k ∈ b.ready ∨ k = j ∧ b.waiting[k]? = some 1 := by
  have hone : b.waiting.getD j 0 = 1 ↔ b.waiting[j]? = some 1 := by
    rw [Array.getD_eq_getD_getElem?, Option.getD_eq_iff]
    simp
  simp only [release]
  split
  · next h =>
    rw [mem_push, or_comm]
    refine or_congr_right ⟨?_, And.left⟩
    rintro rfl
    exact ⟨rfl, hone.mp h⟩
  · next h =>
    refine ⟨Or.inl, ?_⟩
    rintro (hk | ⟨rfl, hk⟩)
    · exact hk
    · exact absurd (hone.mpr hk) h

theorem pairwise_release (hsorted : b.ready.Pairwise (· < ·))
    (hready : ∀ k ∈ b.ready, b.waiting[k]? = some 0) :
    (b.release j).ready.Pairwise (· < ·) := by
  simp only [release]
  split
  · next h =>
    refine pairwise_push hsorted fun hj => ?_
    rw [Array.getD_eq_getD_getElem?, hready j hj] at h
    cases h
  · exact hsorted

section Released

variable {js : List Nat}

theorem foldl_release_waiting (hjs : js.Nodup) : (js.foldl release b).waiting[k]? =
    if k ∈ js then b.waiting[k]?.map (· - 1) else b.waiting[k]? := by
  induction js generalizing b with
  | nil => simp
  | cons j js ih =>
    obtain ⟨hj, hjs⟩ := List.nodup_cons.mp hjs
    rw [List.foldl_cons, ih hjs, release_waiting]
    by_cases hk : k = j
    · simp [hk, hj]
    · simp [hk]

theorem mem_foldl_release_ready (hjs : js.Nodup) : k ∈ (js.foldl release b).ready ↔
    k ∈ b.ready ∨ k ∈ js ∧ b.waiting[k]? = some 1 := by
  induction js generalizing b with
  | nil => simp
  | cons j js ih =>
    obtain ⟨hj, hjs⟩ := List.nodup_cons.mp hjs
    rw [List.foldl_cons, ih hjs, mem_release_ready, release_waiting, List.mem_cons]
    by_cases hk : k = j
    · simp [hk, hj]
    · simp [hk]

theorem pairwise_foldl_release (hsorted : b.ready.Pairwise (· < ·))
    (hready : ∀ k ∈ b.ready, b.waiting[k]? = some 0) :
    (js.foldl release b).ready.Pairwise (· < ·) := by
  induction js generalizing b with
  | nil => exact hsorted
  | cons j js ih =>
    refine ih (pairwise_release hsorted hready) fun k hk => ?_
    rw [release_waiting]
    rcases mem_release_ready.mp hk with hk | ⟨rfl, hone⟩
    · simp [hready k hk]
    · simp [hone]

end Released

theorem mem_dependents {dependencies : Array (List Nat)} {i : Nat} :
    j ∈ dependents dependencies i ↔ ∃ ds, dependencies[j]? = some ds ∧ i ∈ ds := by
  rw [dependents, List.mem_filter, List.mem_range, List.contains_iff_mem,
    Array.getD_eq_getD_getElem?]
  constructor
  · rintro ⟨hj, hi⟩
    rw [Array.getElem?_eq_getElem hj] at hi ⊢
    exact ⟨_, rfl, hi⟩
  · rintro ⟨ds, hds, hi⟩
    rw [hds]
    exact ⟨(Array.getElem?_eq_some_iff.mp hds).1, hi⟩

theorem nodup_dependents (dependencies : Array (List Nat)) (i : Nat) :
    (dependents dependencies i).Nodup :=
  List.nodup_range.filter _

/-- The counters and the indexes that are ready are those of what is placed. -/
structure Tracks (b : Backlog) (dependencies : Array (List Nat)) (placed : Std.HashSet Nat) :
    Prop where
  waiting : ∀ j : Nat, b.waiting[j]? = dependencies[j]?.map (openCount placed)
  sorted : b.ready.Pairwise (· < ·)
  ready : ∀ j, j ∈ b.ready ↔ b.waiting[j]? = some 0 ∧ j ∉ placed
  closed : ∀ j ∈ placed, b.waiting[j]? = some 0

namespace Tracks

variable {dependencies : Array (List Nat)} {placed : Std.HashSet Nat}

theorem ofDependencies (dependencies : Array (List Nat)) :
    (Backlog.ofDependencies dependencies).Tracks dependencies ∅ where
  waiting j := by
    simp only [Backlog.ofDependencies, Array.getElem?_map]
    exact Option.map_congr fun ds _ => (openCount_empty ds).symm
  sorted := List.pairwise_lt_range.filter _
  ready j := by
    simp only [Backlog.ofDependencies, List.mem_filter, List.mem_range, beq_iff_eq,
      Array.getD_eq_getD_getElem?, Std.HashSet.not_mem_empty, not_false_eq_true, and_true]
    constructor
    · rintro ⟨hj, hzero⟩
      rw [Array.getElem?_eq_getElem hj] at hzero ⊢
      exact congrArg some hzero
    · intro hzero
      rw [hzero]
      exact ⟨(Array.getElem?_eq_some_iff.mp hzero).1, rfl⟩
  closed j hj := absurd hj Std.HashSet.not_mem_empty

/-- The first index that is ready is placed, and those that depend on it are released. -/
theorem step {i : Nat} {ready : List Nat} (h : b.Tracks dependencies placed)
    (hready : b.ready = i :: ready) :
    ((dependents dependencies i).foldl release { b with ready }).Tracks dependencies
      (placed.insert i) := by
  have hnodup := nodup_dependents dependencies i
  obtain ⟨hzero, hi⟩ := (h.ready i).mp (hready ▸ List.mem_cons_self)
  obtain ⟨hlt, hsorted⟩ := List.pairwise_cons.mp (hready ▸ h.sorted)
  have hrest (k : Nat) : k ∈ ready ↔ b.waiting[k]? = some 0 ∧ k ∉ placed.insert i := by
    rw [Std.HashSet.mem_insert, beq_iff_eq, not_or, and_left_comm, ← h.ready k, hready,
      List.mem_cons]
    constructor
    · exact fun hk => ⟨Nat.ne_of_lt (hlt k hk), .inr hk⟩
    · exact fun ⟨hne, hk⟩ => hk.resolve_left (Ne.symm hne)
  -- What depends on the index has waited for it at least.
  have hopen {k : Nat} (hk : k ∈ dependents dependencies i) :
      ∃ count, b.waiting[k]? = some (count + 1) := by
    obtain ⟨ds, hds, hmem⟩ := mem_dependents.mp hk
    refine ⟨openCount (placed.insert i) ds, ?_⟩
    rw [h.waiting, hds, Option.map_some, openCount_insert_of_mem hmem hi]
  refine ⟨fun k => ?_, ?_, fun k => ?_, fun k hk => ?_⟩
  · rw [foldl_release_waiting hnodup, h.waiting]
    cases hds : dependencies[k]? with
    | none => simp
    | some ds =>
      by_cases hmem : i ∈ ds
      · rw [if_pos (mem_dependents.mpr ⟨ds, hds, hmem⟩), Option.map_some, Option.map_some,
          Option.map_some, ← openCount_insert_of_mem hmem hi, Nat.add_sub_cancel]
      · rw [if_neg, Option.map_some, Option.map_some, openCount_insert_of_not_mem hmem]
        rintro hk
        obtain ⟨ds', hds', hmem'⟩ := mem_dependents.mp hk
        obtain rfl := Option.some.inj (hds.symm.trans hds')
        exact hmem hmem'
  · exact pairwise_foldl_release hsorted fun k hk => ((hrest k).mp hk).1
  · rw [mem_foldl_release_ready hnodup, foldl_release_waiting hnodup]
    by_cases hk : k ∈ dependents dependencies i
    · obtain ⟨count, hcount⟩ := hopen hk
      have hplaced : k ∉ placed.insert i := by
        rw [Std.HashSet.mem_insert, beq_iff_eq]
        rintro (rfl | hk)
        · rw [hzero] at hcount
          cases hcount
        · rw [h.closed k hk] at hcount
          cases hcount
      simp [hrest, hk, hcount, hplaced]
    · simp [hrest, hk]
  · have hk : b.waiting[k]? = some 0 := by
      rcases Std.HashSet.mem_insert.mp hk with hk | hk
      · rw [← eq_of_beq hk, hzero]
      · exact h.closed k hk
    rw [foldl_release_waiting hnodup, hk]
    split <;> rfl

/-- What is ready is the same for the counters and for the dependencies themselves. -/
theorem find?_eq {remaining : List Nat} (h : b.Tracks dependencies placed)
    (hsorted : remaining.Pairwise (· < ·))
    (hremaining : ∀ j, j ∈ remaining ↔ j < dependencies.size ∧ j ∉ placed) :
    remaining.find? (isReady dependencies placed) = b.ready.head? := by
  have heq : remaining.filter (isReady dependencies placed) = b.ready := by
    refine (hsorted.filter _).eq_of_mem_iff h.sorted fun j => ?_
    rw [List.mem_filter, hremaining, isReady_eq_true, h.ready, h.waiting,
      Array.getD_eq_getD_getElem?]
    by_cases hj : j < dependencies.size
    · simp [hj, and_comm]
    · simp [hj]
  rw [← List.head?_filter, heq]

end Tracks

theorem drain_of_nil {dependencies : Array (List Nat)} (h : b.ready = []) :
    b.drain dependencies = [] := by
  rw [drain]
  split
  · rfl
  · next hcons => exact absurd (h.symm.trans hcons) (by simp)

theorem drain_of_cons {dependencies : Array (List Nat)} {i : Nat} {ready : List Nat}
    (h : b.ready = i :: ready) : b.drain dependencies =
      i :: ((dependents dependencies i).foldl release { b with ready }).drain dependencies := by
  rw [drain]
  split
  · next hnil => exact absurd (h.symm.trans hnil) (by simp)
  · next hcons =>
    obtain ⟨rfl, rfl⟩ := List.cons.inj (hcons.symm.trans h)
    rfl

/-- Counting what each index waits for gives the order that looking for the first one that is ready
gives. -/
theorem place_eq_drain {dependencies : Array (List Nat)} {placed : Std.HashSet Nat}
    {remaining : List Nat} (h : b.Tracks dependencies placed)
    (hsorted : remaining.Pairwise (· < ·))
    (hremaining : ∀ j, j ∈ remaining ↔ j < dependencies.size ∧ j ∉ placed) :
    place dependencies placed remaining = (b.drain dependencies,
      remaining.filter fun j => !(b.drain dependencies).contains j) := by
  induction hn : b.remaining using Nat.strongRecOn generalizing b placed remaining with
  | ind n ih =>
    have hfirst := h.find?_eq hsorted hremaining
    cases hready : b.ready with
    | nil =>
      rw [hready] at hfirst
      rw [place_of_none hfirst, drain_of_nil hready]
      simp
    | cons i ready =>
      rw [hready] at hfirst
      have hnodup : remaining.Nodup := hsorted.nodup
      have hlt : ((dependents dependencies i).foldl release { b with ready }).remaining < n := by
        rw [remaining_foldl_release, ← hn]
        simp [Backlog.remaining, hready]
      have hleft (j : Nat) :
          j ∈ remaining.erase i ↔ j < dependencies.size ∧ j ∉ placed.insert i := by
        rw [hnodup.mem_erase_iff, hremaining, Std.HashSet.mem_insert, beq_iff_eq, not_or,
          and_left_comm, ne_comm]
      rw [place_of_some hfirst, drain_of_cons hready,
        ih _ hlt (h.step hready) (hsorted.sublist List.erase_sublist) hleft rfl,
        hnodup.erase_eq_filter, List.filter_filter]
      refine congrArg (Prod.mk _) (List.filter_congr fun j _ => ?_)
      rw [List.contains_cons, Bool.not_or, Bool.and_comm]
      rfl

end Backlog

/-- The outcome of an order is told by what is left over. -/
theorem dependencyOrder_cases (m : Model) : ∃ order stuck,
    place (m.entries.mapIdx m.dependencies) ∅ (List.range m.size) = (order, stuck) ∧
      (stuck = [] ∧ m.dependencyOrder = .ok (order.filterMap (m.entries[·]?)) ∨
        stuck ≠ [] ∧ m.dependencyOrder = .error (cycleDiagnostic
          (((cycles (m.entries.mapIdx m.dependencies) stuck).map fun group =>
            (group.map m.keyAt).mergeSort fun a b => decide (a ≤ b)).mergeSort
              fun a b => !decide (b < a)))) := by
  have hsize : (m.entries.mapIdx m.dependencies).size = m.size := Array.size_mapIdx
  have hplace := Backlog.place_eq_drain (.ofDependencies (m.entries.mapIdx m.dependencies))
    (List.pairwise_lt_range (n := m.size)) (by simp [hsize])
  have hspec := place_spec (m.entries.mapIdx m.dependencies) ∅ (List.range m.size)
  rw [hplace] at hspec
  have hlength := hspec.1.length_eq
  rw [List.length_append, List.length_range] at hlength
  refine ⟨_, _, hplace, ?_⟩
  unfold dependencyOrder
  dsimp only
  by_cases hall : ((Backlog.ofDependencies (m.entries.mapIdx m.dependencies)).drain
      (m.entries.mapIdx m.dependencies)).length = m.size
  · rw [if_pos hall]
    exact .inl ⟨List.eq_nil_of_length_eq_zero (by omega), rfl⟩
  · rw [if_neg hall]
    refine .inr ⟨fun hnil => ?_, rfl⟩
    rw [hnil, List.length_nil] at hlength
    exact hall hlength

end ConceptScript.Model
