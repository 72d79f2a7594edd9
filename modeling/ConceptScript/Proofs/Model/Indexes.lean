import ConceptScript.Proofs.Model.Insertion
import ConceptScript.Proofs.Node.Equality

namespace ConceptScript

theorem nodup_eraseDups {α : Type} [DecidableEq α] (xs : List α) : xs.eraseDups.Nodup := by
  induction hn : xs.length using Nat.strongRecOn generalizing xs with
  | ind n ih =>
    cases xs with
    | nil => simp
    | cons x xs =>
      rw [List.eraseDups_cons, List.nodup_cons]
      have hlt : (xs.filter fun other => !other == x).length < n := by
        have hle := List.length_filter_le (fun other => !other == x) xs
        rw [List.length_cons] at hn
        omega
      constructor
      · simp [List.mem_eraseDups]
      · exact ih _ hlt _ rfl

/-- Lists the entries under each of their names, in their order. -/
def Index.Lists (index : Index) (names : Node → List String) (nodes : List Node) : Prop :=
  ∀ k, (index.getD k #[]).toList =
    nodes.zipIdx.flatMap fun (n, i) => List.replicate ((names n).count k) i

theorem Index.Lists.empty (names : Node → List String) : Index.Lists ∅ names [] := by
  intro k
  simp

theorem Index.Lists.pushAll {index : Index} {names : Node → List String} {nodes : List Node}
    (h : index.Lists names nodes) (node : Node) :
    (index.pushAll (names node) nodes.length).Lists names (nodes ++ [node]) := by
  intro k
  rw [Index.getD_pushAll, h k, List.zipIdx_append]
  simp

/-- An index lists an entry as often as its concept has the name. -/
theorem Index.Lists.count_eq {index : Index} {names : Node → List String} {nodes : List Node}
    (h : index.Lists names nodes) {i : Nat} {n : Node} (hn : nodes[i]? = some n) (k : String) :
    (index.getD k #[]).toList.count i = (names n).count k := by
  have hother (xs : List Node) (start : Nat) (hi : i < start ∨ start + xs.length ≤ i) :
      ((xs.zipIdx start).flatMap fun x => List.replicate ((names x.1).count k) x.2).count i = 0 := by
    refine List.count_eq_zero.mpr fun hmem => ?_
    obtain ⟨x, hx, hmem⟩ := List.mem_flatMap.mp hmem
    obtain rfl := List.eq_of_mem_replicate hmem
    obtain ⟨hle, hlt, _⟩ := List.mem_zipIdx hx
    omega
  have hlt : i < nodes.length := (List.getElem?_eq_some_iff.mp hn).1
  have hsplit : nodes = nodes.take i ++ n :: nodes.drop (i + 1) := by
    rw [← (List.getElem?_eq_some_iff.mp hn).2, ← List.drop_eq_getElem_cons hlt,
      List.take_append_drop]
  have hlen : (nodes.take i).length = i := List.length_take_of_le (Nat.le_of_lt hlt)
  rw [h k, hsplit, List.zipIdx_append, List.zipIdx_cons, List.flatMap_append, List.flatMap_cons,
    List.count_append, List.count_append, hother _ _ (by omega), hother _ _ (by omega), hlen,
    Nat.zero_add, Nat.zero_add, Nat.add_zero, List.count_replicate_self]

namespace Model

/-- The models that insertions lead to, one after another, from the one without concepts. -/
inductive Reachable (r : Registry) : Model → Prop
  | empty : Reachable r { registry := r }
  | insert {m m' : Model} {node : Node} {origin : Origin} {insertion : Insertion} :
    Reachable r m → m.insert node origin = .ok (insertion, m') → Reachable r m'

theorem Reachable.grow {r : Registry} {m m' : Model} {node : Node} {origin : Origin}
    {resolved : List Nat} (h : m.Reachable r) (g : m.Grows node origin resolved m') :
    m'.Reachable r :=
  .insert h (insert_eq_ok_iff.mpr (.inr ⟨resolved, rfl, g⟩))

theorem Reachable.induct {r : Registry} {P : Model → Prop} (empty : P { registry := r })
    (grow : ∀ {m m' node origin resolved}, Reachable r m → P m →
      m.Grows node origin resolved m' → P m') {m : Model} (h : Reachable r m) : P m := by
  induction h with
  | empty => exact empty
  | insert hm hi ih =>
    obtain ⟨_, _, _, _, rfl⟩ | ⟨resolved, _, g⟩ := insert_eq_ok_iff.mp hi
    · exact ih
    · exact grow hm ih g

theorem Reachable.registry_eq {r : Registry} {m : Model} (h : m.Reachable r) : m.registry = r := by
  refine Reachable.induct (P := fun m => m.registry = r) rfl ?_ h
  intro m m' node origin resolved _ ih g
  rw [g.registry, ih]

section Growth

variable {m m' : Model} {node : Node} {origin : Origin} {resolved : List Nat}

theorem Grows.entries_getElem? (g : m.Grows node origin resolved m') (i : Nat) :
    m'.entries[i]? =
      (m.entries.push ⟨node, origin, node.key, (m.unanswered node).length⟩)[i]?.map fun e =>
        { e with
          unresolved := e.unresolved -
            waitsOf ((park m.waiting m.size (m.unanswered node)).getD node.key #[]).toList i } := by
  obtain ⟨completed, hr, _⟩ := g.released
  exact release_getElem? hr i

theorem Grows.map_entries {α : Type} (g : m.Grows node origin resolved m') (f : Entry → α)
    (hf : ∀ e n, f { e with unresolved := n } = f e) :
    m'.entries.toList.map f = m.entries.toList.map f ++ [f ⟨node, origin, node.key, 0⟩] := by
  apply List.ext_getElem?
  intro i
  rw [List.getElem?_map, Array.getElem?_toList, g.entries_getElem? i, ← Array.getElem?_toList,
    Array.toList_push, Option.map_map, ← List.getElem?_map, List.map_append, List.map_singleton]
  congr 2
  · apply List.map_congr_left
    intro e _
    exact hf e _
  · exact congrArg (fun x => [x]) ((hf _ _).trans (hf ⟨node, origin, node.key, _⟩ 0).symm)

theorem Grows.concepts (g : m.Grows node origin resolved m') :
    m'.concepts = m.concepts ++ [node] :=
  g.map_entries Entry.node fun _ _ => rfl

theorem Grows.size (g : m.Grows node origin resolved m') : m'.size = m.size + 1 := by
  have h := congrArg List.length (g.map_entries Entry.node fun _ _ => rfl)
  simpa [Model.size] using h

end Growth

@[simp] theorem length_concepts (m : Model) : m.concepts.length = m.size := by
  simp [concepts, size]

theorem concepts_getElem? (m : Model) (i : Nat) :
    m.concepts[i]? = m.entries[i]?.map Entry.node := by
  simp [concepts]

theorem concept_of_entry {m : Model} {i : Nat} {e : Entry} (h : m.entries[i]? = some e) :
    m.concepts[i]? = some e.node := by
  rw [concepts_getElem?, h, Option.map_some]

theorem exists_entry {m : Model} {i : Nat} {n : Node} (h : m.concepts[i]? = some n) :
    ∃ e, m.entries[i]? = some e ∧ e.node = n := by
  rwa [concepts_getElem?, Option.map_eq_some_iff] at h

/-- The indexes say what the concepts say. -/
structure Indexed (m : Model) : Prop where
  key_eq : ∀ e ∈ m.entries.toList, e.key = e.node.key
  byKey : ∀ (k : String) (i : Nat), m.byKey[k]? = some i ↔ (m.concepts.map Node.key)[i]? = some k
  byType : m.byType.Lists (fun n => n.type.ancestors) m.concepts
  byReference : m.byReference.Lists referenceKeys m.concepts
  byParent : m.byParent.Lists parentKeys m.concepts

theorem Indexed.empty (r : Registry) : Indexed { registry := r } where
  key_eq := by simp
  byKey := by simp [concepts]
  byType := Index.Lists.empty _
  byReference := Index.Lists.empty _
  byParent := Index.Lists.empty _

section Lookup

variable {m : Model} (h : m.Indexed)
include h

theorem Indexed.key_eq_of_getElem? {i : Nat} {e : Entry} (he : m.entries[i]? = some e) :
    e.key = e.node.key :=
  h.key_eq e (Array.mem_toList_iff.mpr (Array.mem_of_getElem? he))

theorem Indexed.keys_eq : m.entries.toList.map Entry.key = m.concepts.map Node.key := by
  rw [concepts, List.map_map]
  apply List.map_congr_left
  intro e he
  exact h.key_eq e he

theorem Indexed.byKey_eq_some_iff {k : String} {i : Nat} :
    m.byKey[k]? = some i ↔ ∃ e, m.entries[i]? = some e ∧ e.key = k := by
  rw [h.byKey, ← h.keys_eq, List.getElem?_map, Array.getElem?_toList, Option.map_eq_some_iff]

theorem Indexed.entry?_eq_some_iff {k : String} {e : Entry} :
    m.entry? k = some e ↔ e ∈ m.entries.toList ∧ e.key = k := by
  unfold entry?
  rw [Option.bind_eq_some_iff]
  constructor
  · rintro ⟨i, hi, he⟩
    obtain ⟨e', he', hk'⟩ := h.byKey_eq_some_iff.mp hi
    obtain rfl : e' = e := by simpa [he'] using he
    exact ⟨Array.mem_toList_iff.mpr (Array.mem_of_getElem? he), hk'⟩
  · rintro ⟨hm, hk'⟩
    obtain ⟨i, hi⟩ := Array.getElem?_of_mem (Array.mem_toList_iff.mp hm)
    exact ⟨i, h.byKey_eq_some_iff.mpr ⟨e, hi, hk'⟩, hi⟩

theorem Indexed.find?_eq_some_iff {k : String} {n : Node} :
    m.find? k = some n ↔ n ∈ m.concepts ∧ n.key = k := by
  unfold find? concepts
  simp only [Option.map_eq_some_iff, h.entry?_eq_some_iff, List.mem_map]
  constructor
  · rintro ⟨e, ⟨he, rfl⟩, rfl⟩
    exact ⟨⟨e, he, rfl⟩, (h.key_eq e he).symm⟩
  · rintro ⟨⟨e, he, rfl⟩, rfl⟩
    exact ⟨e, ⟨he, h.key_eq e he⟩, rfl⟩

theorem Indexed.find?_eq_none_iff {k : String} :
    m.find? k = none ↔ ∀ n ∈ m.concepts, n.key ≠ k := by
  rw [Option.eq_none_iff_forall_ne_some]
  constructor
  · intro hn n hm hk
    exact hn n (h.find?_eq_some_iff.mpr ⟨hm, hk⟩)
  · intro hn n hf
    obtain ⟨hm, hk⟩ := h.find?_eq_some_iff.mp hf
    exact hn n hm hk

theorem Indexed.contains_iff {k : String} : m.contains k = true ↔ ∃ n ∈ m.concepts, n.key = k := by
  rw [contains, Std.HashMap.contains_eq_isSome_getElem?, Option.isSome_iff_exists]
  simp only [h.byKey]
  rw [← List.mem_iff_getElem?, List.mem_map]

theorem Indexed.keys_nodup : (m.concepts.map Node.key).Nodup := by
  rw [List.Nodup, List.pairwise_iff_getElem]
  intro i j hi hj hlt he
  have hbi := (h.byKey _ i).mpr (List.getElem?_eq_getElem hi)
  have hbj := (h.byKey _ j).mpr (List.getElem?_eq_getElem hj)
  rw [he, hbj] at hbi
  have := Option.some.inj hbi
  omega

end Lookup

theorem Grows.not_mem_keys {m m' : Model} {node : Node} {origin : Origin} {resolved : List Nat}
    (h : m.Indexed) (g : m.Grows node origin resolved m') : ∀ n ∈ m.concepts, n.key ≠ node.key := by
  rw [← h.find?_eq_none_iff, find?, g.free, Option.map_none]

theorem getElem?_insert_iff {places : Std.HashMap String Nat} {keys : List String}
    (h : ∀ (k : String) (i : Nat), places[k]? = some i ↔ keys[i]? = some k) {key : String}
    (hfree : key ∉ keys) (k : String) (i : Nat) :
    (places.insert key keys.length)[k]? = some i ↔ (keys ++ [key])[i]? = some k := by
  rw [Std.HashMap.getElem?_insert]
  by_cases hk : key = k
  · subst hk
    rw [if_pos (by simp)]
    by_cases hi : i < keys.length
    · rw [List.getElem?_append_left hi]
      constructor
      · intro he
        have := Option.some.inj he
        omega
      · intro he
        exact absurd (List.mem_of_getElem? he) hfree
    · rw [List.getElem?_append_right (Nat.le_of_not_lt hi), List.getElem?_singleton]
      simp only [Option.some.injEq]
      split <;> simp <;> omega
  · rw [if_neg (by simpa using hk), h]
    by_cases hi : i < keys.length
    · rw [List.getElem?_append_left hi]
    · have hi := Nat.le_of_not_lt hi
      rw [List.getElem?_append_right hi, List.getElem?_eq_none hi, List.getElem?_singleton]
      split <;> simp [hk]

theorem Indexed.grow {m m' : Model} {node : Node} {origin : Origin} {resolved : List Nat}
    (h : m.Indexed) (g : m.Grows node origin resolved m') : m'.Indexed where
  key_eq := by
    intro e he
    obtain ⟨i, hi⟩ := Array.getElem?_of_mem (Array.mem_toList_iff.mp he)
    rw [g.entries_getElem? i, Array.getElem?_push, Option.map_eq_some_iff] at hi
    obtain ⟨e', he', rfl⟩ := hi
    split at he'
    · obtain rfl := Option.some.inj he'
      rfl
    · exact h.key_eq e' (Array.mem_toList_iff.mpr (Array.mem_of_getElem? he'))
  byKey := by
    intro k i
    have hfree : node.key ∉ m.concepts.map Node.key := by
      intro hk
      obtain ⟨n, hn, hkey⟩ := List.mem_map.mp hk
      exact g.not_mem_keys h n hn hkey
    have hlen : (m.concepts.map Node.key).length = m.size := by simp
    rw [g.byKey, g.concepts, List.map_append, List.map_singleton, ← hlen]
    exact getElem?_insert_iff h.byKey hfree k i
  byType := by
    rw [g.byType, g.concepts, ← length_concepts]
    exact h.byType.pushAll node
  byReference := by
    rw [g.byReference, g.concepts, ← length_concepts]
    exact h.byReference.pushAll node
  byParent := by
    rw [g.byParent, g.concepts, ← length_concepts]
    exact h.byParent.pushAll node

/-- The model has the concept, under its key. -/
def Holds (m : Model) (node : Node) : Prop :=
  ∃ e, m.entry? node.key = some e ∧ e.node.same node = true

theorem Indexed.holds_iff {m : Model} (h : m.Indexed) {node : Node} :
    m.Holds node ↔ ∃ c ∈ m.concepts, c.Equal node := by
  constructor
  · rintro ⟨e, he, hs⟩
    obtain ⟨hm, hk⟩ := h.entry?_eq_some_iff.mp he
    exact ⟨e.node, List.mem_map_of_mem hm, hs, (h.key_eq e hm).symm.trans hk⟩
  · rintro ⟨c, hc, he⟩
    obtain ⟨e, hm, rfl⟩ := List.mem_map.mp hc
    exact ⟨e, h.entry?_eq_some_iff.mpr ⟨hm, (h.key_eq e hm).trans he.key_eq⟩, he.same⟩

theorem Grows.holds_of_holds {m m' : Model} {node : Node} {origin : Origin} {resolved : List Nat}
    (h : m.Indexed) (g : m.Grows node origin resolved m') {n : Node} (hn : m.Holds n) :
    m'.Holds n := by
  obtain ⟨c, hc, he⟩ := h.holds_iff.mp hn
  exact (h.grow g).holds_iff.mpr ⟨c, by rw [g.concepts]; exact List.mem_append_left _ hc, he⟩

theorem Grows.holds {m m' : Model} {node : Node} {origin : Origin} {resolved : List Nat}
    (h : m.Indexed) (g : m.Grows node origin resolved m') : m'.Holds node :=
  (h.grow g).holds_iff.mpr ⟨node, by rw [g.concepts]; simp, Node.Equal.refl node⟩

theorem Reachable.indexed {r : Registry} {m : Model} (h : m.Reachable r) : m.Indexed :=
  Reachable.induct (Indexed.empty r) (fun _ hm g => hm.grow g) h

end Model

end ConceptScript
