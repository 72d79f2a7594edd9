import Std.Data.HashSet
import ConceptScript.Model

namespace ConceptScript.Model

/-- The entries that the entry at an index refers to, itself left out. -/
def dependencies (m : Model) (index : Nat) (e : Entry) : List Nat :=
  (e.node.references.filterMap fun (_, r) => m.byKey[r.key]?).filter (· != index)

/-- The indexes that depend on an index. -/
def dependents (dependencies : Array (List Nat)) (i : Nat) : List Nat :=
  (List.range dependencies.size).filter fun j => (dependencies.getD j []).contains i

/-- What is left to place: for each index the number of its dependencies that are not placed yet,
and in ascending order the indexes for which that number is zero. -/
structure Backlog where
  waiting : Array Nat
  ready : List Nat

namespace Backlog

/-- Nothing is placed yet. Several references to one entry are one dependency. -/
def ofDependencies (dependencies : Array (List Nat)) : Backlog :=
  let waiting := dependencies.map fun ds => ds.eraseDups.length
  ⟨waiting, (List.range waiting.size).filter fun i => waiting.getD i 0 == 0⟩

/-- Adds an index to ascending ones. -/
def push (i : Nat) : List Nat → List Nat
  | [] => [i]
  | j :: js => if i ≤ j then i :: j :: js else j :: push i js

theorem length_push (i : Nat) (js : List Nat) : (push i js).length = js.length + 1 := by
  induction js with
  | nil => rfl
  | cons j js ih =>
    unfold push
    split
    · rfl
    · rw [List.length_cons, ih, List.length_cons]

/-- One more dependency of an index is placed. -/
def release (b : Backlog) (j : Nat) : Backlog :=
  let count := b.waiting.getD j 0
  ⟨b.waiting.setIfInBounds j (count - 1), if count = 1 then push j b.ready else b.ready⟩

/-- The number of indexes that are still to come, if all do. -/
def remaining (b : Backlog) : Nat := b.waiting.countP (0 < ·) + b.ready.length

theorem remaining_release (b : Backlog) (j : Nat) : (b.release j).remaining = b.remaining := by
  unfold release remaining
  by_cases hj : j < b.waiting.size
  · have hcount : b.waiting.getD j 0 = b.waiting[j] := by simp [Array.getD, hj]
    simp only [hcount, Array.setIfInBounds_def, dif_pos hj, Array.countP_set hj, decide_eq_true_eq]
    by_cases hpositive : 0 < b.waiting[j]
    · have hpos : 0 < b.waiting.countP (0 < ·) :=
        Array.countP_pos_iff.mpr ⟨_, Array.getElem_mem hj, by simpa using hpositive⟩
      by_cases hone : b.waiting[j] = 1
      · rw [if_pos hpositive, if_neg (by omega), if_pos hone, length_push]
        omega
      · rw [if_pos hpositive, if_pos (by omega), if_neg hone]
        omega
    · rw [if_neg hpositive, if_neg (by omega), if_neg (by omega)]
      rfl
  · have hcount : b.waiting.getD j 0 = 0 := by simp [Array.getD, hj]
    simp [hcount, Array.setIfInBounds_def, hj]

theorem remaining_foldl_release (b : Backlog) (js : List Nat) :
    (js.foldl release b).remaining = b.remaining := by
  induction js generalizing b with
  | nil => rfl
  | cons j js ih => rw [List.foldl_cons, ih, remaining_release]

/-- Takes the smallest index that is ready, as long as there is one, and releases those that depend
on it. -/
def drain (dependencies : Array (List Nat)) (b : Backlog) : List Nat :=
  match _h : b.ready with
  | [] => []
  | i :: ready =>
    i :: drain dependencies ((dependents dependencies i).foldl release { b with ready })
termination_by b.remaining
decreasing_by
  rw [remaining_foldl_release]
  simp only [remaining, _h, List.length_cons]
  omega

end Backlog

/-- The indexes of a pool that can be reached from a list through dependencies in the pool. -/
def reach (dependencies : Array (List Nat)) (pool : Std.HashSet Nat) : List Nat → List Nat
  | [] => []
  | i :: rest =>
    if _h : i ∈ pool then i :: reach dependencies (pool.erase i) (dependencies.getD i [] ++ rest)
    else reach dependencies pool rest
termination_by frontier => (pool.size, frontier.length)
decreasing_by
  · refine Prod.Lex.left _ _ ?_
    have : pool.size ≠ 0 := fun h => by
      have := Std.HashSet.isEmpty_iff_forall_not_mem.1 (by simpa [Std.HashSet.isEmpty_eq_size_eq_zero] using h)
      exact this i _h
    rw [Std.HashSet.size_erase]
    simp only [_h, if_true]
    omega
  · exact Prod.Lex.right _ (by simp)

/-- The groups of two or more indexes that reach one another. -/
def cycles (dependencies : Array (List Nat)) (stuck : List Nat) : List (List Nat) :=
  let pool := Std.HashSet.ofList stuck
  let reached := stuck.map fun i =>
    (i, Std.HashSet.ofList (reach dependencies pool (dependencies.getD i [])))
  let groups := reached.map fun (i, fromI) =>
    (i, (reached.filter fun (j, fromJ) => i == j || (fromI.contains j && fromJ.contains i)).map
      Prod.fst)
  (groups.filter fun (i, group) => group.length > 1 && group.head? == some i).map Prod.snd

def cycleDiagnostic (groups : List (List String)) : Diagnostic where
  code := .dependencyCycle
  message := "concepts reference each other in a cycle: " ++ ", ".intercalate (groups.headD [])
  causes := "break the cycle by removing one of the references"
  details := groups.map fun keys => " <-> ".intercalate keys

/-- The entries, each after those it refers to and otherwise in the order they came. -/
def dependencyOrder (m : Model) : Except Diagnostic (List Entry) :=
  let dependencies := m.entries.mapIdx m.dependencies
  let order := (Backlog.ofDependencies dependencies).drain dependencies
  if order.length = m.size then .ok (order.filterMap (m.entries[·]?))
  else
    let stuck := (List.range m.size).filter fun i => !order.contains i
    let groups := (cycles dependencies stuck).map fun group =>
      (group.map m.keyAt).mergeSort fun a b => decide (a ≤ b)
    .error (cycleDiagnostic (groups.mergeSort fun a b => !decide (b < a)))

end ConceptScript.Model
