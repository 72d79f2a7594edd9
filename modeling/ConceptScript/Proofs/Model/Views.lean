import ConceptScript.Proofs.Model.Listing
import ConceptScript.Proofs.Registry.Inheritance

namespace ConceptScript

/-- An index lists a concept once under each of its names. -/
theorem Index.Lists.filterMap_eq {index : Index} {names : Node → List String} {nodes : List Node}
    (h : index.Lists names nodes) (hn : ∀ n ∈ nodes, (names n).Nodup) (k : String) :
    (index.getD k #[]).toList.filterMap (nodes[·]?) =
      nodes.filter fun n => (names n).contains k := by
  -- The index has a place as often as the concept there has the name, which is once or never.
  have hat : ∀ x ∈ nodes.zipIdx, (List.replicate ((names x.1).count k) x.2).filterMap (nodes[·]?) =
      (Option.guard (fun n => (names n).contains k) x.1).toList := by
    intro x hx
    have hx' : nodes[x.2]? = some x.1 := List.mem_zipIdx_iff_getElem?.mp hx
    have hc := (hn x.1 (List.mem_of_getElem? hx')).count (a := k)
    by_cases hk : k ∈ names x.1
    · simp [hc, hk, hx', Option.guard]
    · simp [hc, hk, Option.guard]
  calc (index.getD k #[]).toList.filterMap (nodes[·]?)
      = nodes.zipIdx.flatMap fun x =>
          (Option.guard (fun n => (names n).contains k) x.1).toList := by
        rw [h k, List.filterMap_flatMap]
        exact List.flatMap_congr hat
    _ = (nodes.zipIdx.map Prod.fst).flatMap fun n =>
          (Option.guard (fun n => (names n).contains k) n).toList := by
        rw [List.flatMap_map]
    _ = nodes.filter fun n => (names n).contains k := by
        rw [List.zipIdx_map_fst, ← List.filterMap_eq_flatMap_toList, List.filterMap_eq_filter]

namespace Model

theorem Indexed.select_eq {m : Model} {index : Index} {names : Node → List String}
    (h : index.Lists names m.concepts) (hn : ∀ n ∈ m.concepts, (names n).Nodup) (k : String) :
    m.select index k = m.concepts.filter fun n => (names n).contains k := by
  rw [← h.filterMap_eq hn k, select]
  congr 1
  funext i
  rw [concepts_getElem?]

theorem contains_referenceKeys (n : Node) (k : String) :
    (referenceKeys n).contains k = n.references.any fun (_, target) => target.key == k := by
  rw [Bool.eq_iff_iff, List.contains_iff_mem, referenceKeys, List.mem_eraseDups]
  simp [links, Function.comp_def]

theorem contains_parentKeys (n : Node) (k : String) :
    (parentKeys n).contains k = n.parent?.any fun parent => parent.key == k := by
  rw [Bool.eq_iff_iff, List.contains_iff_mem, parentKeys]
  cases n.parent? with
  | none => simp
  | some parent => simp [@eq_comm String k]

theorem Indexed.children_eq {m : Model} (h : m.Indexed) (k : String) :
    m.children k = m.concepts.filter fun n => n.parent?.any fun parent => parent.key == k := by
  have hnodup : ∀ n ∈ m.concepts, (parentKeys n).Nodup := by
    intro n _
    unfold parentKeys
    cases n.parent? <;> simp
  rw [children, Indexed.select_eq h.byParent hnodup k]
  simp only [contains_parentKeys]

end Model

/-- A type of some registry. -/
def ConceptType.Declared (t : ConceptType) : Prop :=
  ∃ declared r, Registry.build declared = .ok r ∧ t ∈ r.types

theorem ConceptType.Declared.ancestors_nodup {t : ConceptType} (h : t.Declared) :
    t.ancestors.Nodup := by
  obtain ⟨declared, r, hb, ht⟩ := h
  exact Registry.ancestors_nodup_of_build hb ht

namespace Model

/-- However a model was reached, its keys are those of its concepts and all different, each key
leads to its own entry, and the views are what a scan of the concepts finds. -/
theorem views_eq_scan {r : Registry} {m : Model} (h : m.Reachable r)
    (ht : ∀ n ∈ m.concepts, n.type.Declared) :
    (m.entries.toList.map Entry.key).Nodup ∧
    (∀ e ∈ m.entries.toList, e.key = e.node.key) ∧
    (∀ (k : String) (i : Nat), m.byKey[k]? = some i ↔ ∃ e, m.entries[i]? = some e ∧ e.key = k) ∧
    (∀ t, m.ofType t = m.concepts.filter fun n => n.type.isA t) ∧
    (∀ k, m.referencing k =
      m.concepts.filter fun n => n.references.any fun (_, target) => target.key == k) ∧
    ∀ k, m.children k = m.concepts.filter fun n => n.parent?.any fun parent => parent.key == k := by
  have hi := h.indexed
  refine ⟨hi.keys_eq ▸ hi.keys_nodup, hi.key_eq, fun k i => hi.byKey_eq_some_iff, ?_, ?_, ?_⟩
  · intro t
    exact Indexed.select_eq hi.byType (fun n hn => (ht n hn).ancestors_nodup) t
  · intro k
    rw [referencing, Indexed.select_eq hi.byReference (fun n _ => nodup_eraseDups _) k]
    simp only [contains_referenceKeys]
  · intro k
    have hnodup : ∀ n ∈ m.concepts, (parentKeys n).Nodup := by
      intro n _
      unfold parentKeys
      cases n.parent? <;> simp
    rw [children, Indexed.select_eq hi.byParent hnodup k]
    simp only [contains_parentKeys]

/-- A group that lists one entity twice, before the entity and its module. -/
theorem views_eq_scan_small :
    ∃ m : Model, m.Reachable Small.registry ∧ (∀ n ∈ m.concepts, n.type.Declared) ∧ m.size = 3 ∧
      m.ofType "Entity" = [Small.entity "Common" "Person"] ∧
      m.referencing "Entity Common.Person" = [Small.group "All"
        [Small.entity "Common" "Person", Small.entity "Common" "Person"]] ∧
      m.children "Module Common" = [Small.entity "Common" "Person"] := by
  have hempty : Model.Reachable Small.registry { registry := Small.registry } := .empty
  obtain ⟨m₁, h₁, hcs₁⟩ := hempty.exists_grown (n := Small.group "All"
    [Small.entity "Common" "Person", Small.entity "Common" "Person"]) (by decide)
  obtain ⟨m₂, h₂, hcs₂⟩ := h₁.exists_grown (n := Small.entity "Common" "Person")
    (by rw [hcs₁]; decide)
  obtain ⟨m, h, hcs⟩ := h₂.exists_grown (n := Small.module "Common")
    (by rw [hcs₂, hcs₁]; decide)
  rw [hcs₂, hcs₁] at hcs
  have ht : ∀ n ∈ m.concepts, n.type.Declared := by
    intro n hn
    have htypes : ∀ n ∈ m.concepts, n.type ∈ Small.registry.types := by
      rw [hcs]
      decide
    exact ⟨Small.declared, Small.registry, Small.build_declared, htypes n hn⟩
  obtain ⟨_, _, _, htype, hreference, hparent⟩ := views_eq_scan h ht
  refine ⟨m, h, ht, by rw [← m.length_concepts, hcs]; rfl, ?_, ?_, ?_⟩
  · rw [htype, hcs]
    rfl
  · rw [hreference, hcs]
    rfl
  · rw [hparent, hcs]
    rfl

end Model

end ConceptScript
