import ConceptScript.Proofs.Expansion.Saturation
import ConceptScript.Proofs.Model.Serialization
import ConceptScript.Proofs.Registry.Inheritance

namespace ConceptScript

namespace Derivation

/-- An expansion may use the rule on the concept: it is in the model, with all it refers to. -/
structure Callable (r : Registry) (d : Derivation) (n : Node) (m : Model) : Prop where
  reachable : m.Reachable r
  typed : ∀ c ∈ m.concepts, c.type ∈ r.types
  type_mem : n.type ∈ r.types
  applies : n.type.isA d.onType = true
  holds : m.Holds n
  resolved : ∀ l ∈ Model.links n, m.contains l.key = true

/-- Where an expansion may use it, the rule does not fail and derives concepts of known types. Equal
concepts give equal concepts. Only a rule that reads the model depends on it, and it derives no less
from a model that has more. -/
structure Regular (r : Registry) (d : Derivation) : Prop where
  succeeds : ∀ {n m}, d.Callable r n m → ∃ nodes, d.derive n m = .ok nodes
  typed : ∀ {n m nodes}, d.Callable r n m → d.derive n m = .ok nodes → ∀ c ∈ nodes, c.type ∈ r.types
  respects : ∀ {n n' m nodes nodes'}, n.Equal n' → d.Callable r n m → d.Callable r n' m →
    d.derive n m = .ok nodes → d.derive n' m = .ok nodes' → List.Forall₂ Node.Equal nodes nodes'
  ignores : d.readsModel = false → ∀ {n m m' nodes nodes'}, d.Callable r n m → d.Callable r n m' →
    d.derive n m = .ok nodes → d.derive n m' = .ok nodes' → nodes = nodes'
  monotone : d.readsModel = true → ∀ {n m m' nodes nodes'}, (∀ c ∈ m.concepts, m'.Holds c) →
    d.Callable r n m → d.Callable r n m' → d.derive n m = .ok nodes → d.derive n m' = .ok nodes' →
    ∀ c ∈ nodes, ∃ c' ∈ nodes', c.Equal c'

/-- What a rule derives from a concept, it also derives from an equal one in a larger model. -/
theorem Regular.transfer {r : Registry} {d : Derivation} (h : d.Regular r) {n n' : Node}
    {p q : Model} {nodes nodes' : List Node} (he : n.Equal n')
    (hsub : d.readsModel = true → ∀ c ∈ p.concepts, q.Holds c) (hnp : d.Callable r n p)
    (hnp' : d.Callable r n' p) (hnq' : d.Callable r n' q) (hd : d.derive n p = .ok nodes)
    (hd' : d.derive n' q = .ok nodes') : ∀ c ∈ nodes, ∃ c' ∈ nodes', c.Equal c' := by
  intro c hc
  obtain ⟨middle, hmiddle⟩ := h.succeeds hnp'
  obtain ⟨b, hb, hcb⟩ := exists_of_forall₂_right (h.respects he hnp hnp' hd hmiddle).flip hc
  cases hreads : d.readsModel with
  | false =>
    obtain rfl := h.ignores hreads hnp' hnq' hmiddle hd'
    exact ⟨b, hb, hcb⟩
  | true =>
    obtain ⟨c', hc', hbc'⟩ := h.monotone hreads (hsub hreads) hnp' hnq' hmiddle hd' b hb
    exact ⟨c', hc', hcb.trans hbc'⟩

theorem Callable.of_mem {r : Registry} {d : Derivation} {n : Node} {m : Model}
    (hm : m.Reachable r) (htyped : ∀ c ∈ m.concepts, c.type ∈ r.types) (hn : n ∈ m.concepts)
    (ha : n.type.isA d.onType = true) (hres : ∀ l ∈ Model.links n, m.contains l.key = true) :
    d.Callable r n m :=
  ⟨hm, htyped, htyped n hn, ha, hm.indexed.holds_iff.mpr ⟨n, hn, .refl n⟩, hres⟩

end Derivation

namespace Model

theorem Holds.of_equal {m : Model} {a b : Node} (h : m.Holds a) (he : a.Equal b) : m.Holds b := by
  obtain ⟨e, hentry, hs⟩ := h
  exact ⟨e, he.key_eq ▸ hentry, Node.same_trans hs he.same⟩

theorem Holds.equal {m : Model} {a b : Node} (ha : m.Holds a) (hb : m.Holds b)
    (hk : a.key = b.key) : a.Equal b := by
  obtain ⟨e, he, hs⟩ := ha
  obtain ⟨e', he', hs'⟩ := hb
  obtain rfl : e = e' := Option.some.inj (he.symm.trans (hk ▸ he'))
  exact ⟨Node.same_trans (Node.same_symm hs) hs', hk⟩

theorem Indexed.contains_of_subset {p m : Model} (hp : p.Indexed) (hm : m.Indexed)
    (hsub : ∀ c ∈ p.concepts, m.Holds c) {k : String} (hk : p.contains k = true) :
    m.contains k = true := by
  obtain ⟨c, hc, hck⟩ := hp.contains_iff.mp hk
  obtain ⟨c', hc', he⟩ := hm.holds_iff.mp (hsub c hc)
  exact hm.contains_iff.mpr ⟨c', hc', he.key_eq.trans hck⟩

end Model

def Registry.Unambiguous (r : Registry) : Prop :=
  ∀ t ∈ r.types, ∀ u ∈ r.types, t.name = u.name → t = u

theorem Node.Equal.type_eq {r : Registry} (hr : r.Unambiguous) {a b : Node} (h : a.Equal b)
    (ha : a.type ∈ r.types) (hb : b.type ∈ r.types) : a.type = b.type :=
  hr a.type ha b.type hb (Node.same_iff.mp h.same).1

namespace Expansion

variable {r : Registry} {rules : Derivations} {seeds : List Seed} {m : Model}

/-- What holds of the seeds, and of what a rule derives from concepts of which it holds, holds of
all concepts. -/
theorem Saturated.concepts_induct (h : Saturated r rules seeds m) {P : Node → Prop}
    (hseeds : ∀ s ∈ seeds, P s.node)
    (hderived : ∀ {p : Model} {n : Node} {d : Derivation} {nodes : List Node}, p.Reachable r →
      (∀ c ∈ p.concepts, P c) → n ∈ p.concepts →
      (∀ l ∈ Model.links n, p.contains l.key = true) → d ∈ rules → n.type.isA d.onType = true →
      d.derive n p = .ok nodes → ∀ c ∈ nodes, P c) :
    ∀ c ∈ m.concepts, P c := by
  -- By induction on the index: a concept is derived from a model of those before it.
  have hindex : ∀ (i : Nat) s, m.seeds[i]? = some s → P s.node := by
    intro i
    induction i using Nat.strongRecOn with
    | ind i ih =>
      intro s hs
      rcases h.entries i s hs with hgiven |
        ⟨j, p, hj, hp, k, n, hn, hk, _, d, hd, ha, nodes, hout, hmem⟩
      · exact hseeds s hgiven
      · have hpr := h.reachable.reachable_past hp
        have hall : ∀ c ∈ p.concepts, P c := by
          intro c hc
          obtain ⟨i', hi'⟩ := List.getElem?_of_mem hc
          obtain ⟨hlt, hc'⟩ := h.reachable.past_concept hp hi'
          rw [← Model.map_node_seeds, List.getElem?_map] at hc'
          obtain ⟨s', hs', rfl⟩ := Option.map_eq_some_iff.mp hc'
          exact ih i' (Nat.lt_of_lt_of_le hlt hj) s' hs'
        exact hderived hpr hall (List.mem_of_getElem? hn)
          (hpr.resolving.contains_of_resolvedAt hk hn) hd ha hout s.node hmem
  intro c hc
  rw [← Model.map_node_seeds] at hc
  obtain ⟨s, hs, rfl⟩ := List.mem_map.mp hc
  obtain ⟨i, hi⟩ := List.getElem?_of_mem hs
  exact hindex i s hi

theorem Saturated.typed (h : Saturated r rules seeds m) (hreg : ∀ d ∈ rules, d.Regular r)
    (hseeds : ∀ s ∈ seeds, s.node.type ∈ r.types) : ∀ c ∈ m.concepts, c.type ∈ r.types := by
  refine h.concepts_induct (P := fun c => c.type ∈ r.types) hseeds ?_
  intro p n d nodes hp hall hn hres hd ha hout
  exact (hreg d hd).typed (.of_mem hp hall hn ha hres) hout

/-- Each rule was used on each complete concept, and the model has what it gave. A rule that reads
the model saw all of it in the last round. -/
theorem Saturated.exists_use (h : Saturated r rules seeds m)
    (htyped : ∀ c ∈ m.concepts, c.type ∈ r.types) {d : Derivation} (hd : d ∈ rules) {i : Nat}
    {n : Node} (hn : m.concepts[i]? = some n) (ha : n.type.isA d.onType = true)
    (hi : m.resolvedAt i = true) :
    ∃ q nodes, d.Callable r n q ∧ (d.readsModel = true → q = m) ∧ d.derive n q = .ok nodes ∧
      ∀ c ∈ nodes, m.Holds c := by
  cases hreads : d.readsModel with
  | true =>
    obtain ⟨nodes, hnodes, hheld⟩ := h.round i hi n hn d ⟨hd, ha, fun _ => hreads⟩
    have hres := h.reachable.resolving.contains_of_resolvedAt hi hn
    exact ⟨m, nodes, .of_mem h.reachable htyped (List.mem_of_getElem? hn) ha hres,
      fun _ => rfl, hnodes, hheld⟩
  | false =>
    -- Another rule was used on the concept when it was completed.
    obtain ⟨k, q, hc⟩ := h.reachable.exists_completed hi
    have hqr := h.reachable.reachable_past hc.past
    have hq := h.reachable.concept_of_completed hc hn
    have hres := hqr.resolving.contains_of_resolvedAt hc.resolved hq
    have hqt : ∀ c ∈ q.concepts, c.type ∈ r.types := by
      intro c hcq
      rw [h.reachable.concepts_past hc.past] at hcq
      exact htyped c (List.mem_of_mem_take hcq)
    obtain ⟨nodes, hnodes, hheld⟩ := h.completed i k q hc n hq d ⟨hd, ha, by simp⟩
    exact ⟨q, nodes, .of_mem hqr hqt (List.mem_of_getElem? hq) ha hres, by simp, hnodes, hheld⟩

/-- A saturated model has all that its rules derive from a part of it. -/
theorem Saturated.closed (hr : r.Unambiguous) (h : Saturated r rules seeds m)
    (htyped : ∀ c ∈ m.concepts, c.type ∈ r.types) {d : Derivation} (hd : d ∈ rules)
    (hreg : d.Regular r) {n : Node} {p : Model} (hcall : d.Callable r n p)
    (hsub : ∀ c ∈ p.concepts, m.Holds c) {nodes : List Node} (hout : d.derive n p = .ok nodes) :
    ∀ c ∈ nodes, m.Holds c := by
  have hm := h.reachable.indexed
  have hp := hcall.reachable.indexed
  -- The model has the concept, up to equality, and it is complete there.
  obtain ⟨c₀, hc₀, he₀⟩ := hp.holds_iff.mp hcall.holds
  obtain ⟨n', hn', he'⟩ := hm.holds_iff.mp ((hsub c₀ hc₀).of_equal he₀)
  have htype : n.type = n'.type := he'.symm.type_eq hr hcall.type_mem (htyped n' hn')
  have hlinks : Model.links n = Model.links n' := he'.symm.links_eq htype
  have hcall' : d.Callable r n' p :=
    ⟨hcall.reachable, hcall.typed, htyped n' hn', htype ▸ hcall.applies,
      hcall.holds.of_equal he'.symm, hlinks ▸ hcall.resolved⟩
  have hresolved : ∀ l ∈ Model.links n', m.contains l.key = true := fun l hl =>
    hp.contains_of_subset hm hsub (hcall'.resolved l hl)
  obtain ⟨i, hi⟩ := List.getElem?_of_mem hn'
  have hat : m.resolvedAt i = true :=
    (Model.resolvedAt_iff h.reachable.resolving).mpr ⟨n', hi, hresolved⟩
  obtain ⟨q, nodes', hcallq, hq, hout', hheld⟩ :=
    h.exists_use htyped hd hi hcall'.applies hat
  intro c hc
  have hsubq : d.readsModel = true → ∀ c ∈ p.concepts, q.Holds c := by
    intro hreads
    rw [hq hreads]
    exact hsub
  obtain ⟨c', hc', he⟩ := hreg.transfer he'.symm hsubq hcall hcall' hcallq hout hout' c hc
  exact (hheld c' hc').of_equal he.symm

/-- A concept of a known type that the model has. -/
def Known (r : Registry) (m : Model) (c : Node) : Prop := c.type ∈ r.types ∧ m.Holds c

theorem Known.exists_mem (hr : r.Unambiguous) (hm : m.Indexed)
    (htyped : ∀ c ∈ m.concepts, c.type ∈ r.types) {a : Node} (ha : Known r m a) :
    ∃ a' ∈ m.concepts, a'.Equal a ∧ a'.type = a.type := by
  obtain ⟨a', ha', he⟩ := hm.holds_iff.mp ha.2
  exact ⟨a', ha', he, he.type_eq hr (htyped a' ha') ha.1⟩

theorem Known.satisfies (hr : r.Unambiguous) (hm : m.Reachable r)
    (htyped : ∀ c ∈ m.concepts, c.type ∈ r.types) {a b : Node} (ha : Known r m a)
    (hb : Known r m b) {l : Model.Link} (hl : l ∈ Model.links a) (hk : b.key = l.key) :
    b.type.satisfies l.target = true := by
  obtain ⟨a', ha', hea, hta⟩ := ha.exists_mem hr hm.indexed htyped
  obtain ⟨b', hb', heb, htb⟩ := hb.exists_mem hr hm.indexed htyped
  have hfind : m.find? l.key = some b' :=
    hm.indexed.find?_eq_some_iff.mpr ⟨hb', heb.key_eq.trans hk⟩
  rw [← htb]
  exact hm.resolving.fits a' ha' l (hea.links_eq hta ▸ hl) b' hfind

theorem Saturated.known_of_derive (hr : r.Unambiguous) (h : Saturated r rules seeds m)
    (htyped : ∀ c ∈ m.concepts, c.type ∈ r.types) {d : Derivation} (hd : d ∈ rules)
    (hreg : d.Regular r) {n : Node} {p : Model} (hcall : d.Callable r n p)
    (hknown : ∀ c ∈ p.concepts, Known r m c) {nodes : List Node}
    (hout : d.derive n p = .ok nodes) : ∀ c ∈ nodes, Known r m c := by
  intro c hc
  have hheld := h.closed hr htyped hd hreg hcall (fun c hc => (hknown c hc).2) hout c hc
  exact ⟨hreg.typed hcall hout c hc, hheld⟩

theorem Saturated.yields_known (hr : r.Unambiguous) (h : Saturated r rules seeds m)
    (htyped : ∀ c ∈ m.concepts, c.type ∈ r.types) {rules' : Derivations}
    (hrules : ∀ d ∈ rules', d ∈ rules) (hreg : ∀ d ∈ rules', d.Regular r) {onlyReaders : Bool}
    {p : Model} (hp : p.Reachable r) (hknown : ∀ c ∈ p.concepts, Known r m c) {i : Nat}
    (hi : p.resolvedAt i = true) : Yields rules' onlyReaders p i (Known r m) := by
  intro n hn d hd
  have hres := hp.resolving.contains_of_resolvedAt hi hn
  have hcall : d.Callable r n p :=
    .of_mem hp (fun c hc => (hknown c hc).1) (List.mem_of_getElem? hn) hd.2.1 hres
  obtain ⟨nodes, hout⟩ := (hreg d hd.1).succeeds hcall
  exact ⟨nodes, hout, h.known_of_derive hr htyped (hrules d hd.1) (hreg d hd.1) hcall hknown hout⟩

theorem Saturated.concepts_held (hr : r.Unambiguous) {rules' : Derivations} {seeds' : List Seed}
    {m' : Model} (h : Saturated r rules seeds m) (h' : Saturated r rules' seeds' m')
    (hreg : ∀ d ∈ rules', d.Regular r) (hrules : ∀ d ∈ rules, d ∈ rules')
    (htyped : ∀ s ∈ seeds', s.node.type ∈ r.types) (hseeds : ∀ s ∈ seeds, s ∈ seeds') :
    ∀ c ∈ m.concepts, m'.Holds c := by
  have hall : ∀ c ∈ m.concepts, Known r m' c := by
    refine h.concepts_induct (P := Known r m') ?_ ?_
    · intro s hs
      exact ⟨htyped s (hseeds s hs), h'.given s (hseeds s hs)⟩
    · intro p n d nodes hp hall hn hres hd ha hout c hc
      have hcall : d.Callable r n p := .of_mem hp (fun c hc => (hall c hc).1) hn ha hres
      exact h'.known_of_derive hr (h'.typed hreg htyped) (hrules d hd) (hreg d (hrules d hd))
        hcall hall hout c hc
  exact fun c hc => (hall c hc).2

/-- The state of a run that has not left a model. -/
structure Within (r : Registry) (m : Model) (x : Expansion) : Prop where
  reachable : x.model.Reachable r
  concepts : ∀ c ∈ x.model.concepts, Known r m c
  queue : ∀ s ∈ x.queue.toList, Known r m s.node

theorem Saturated.grows_within (hr : r.Unambiguous) (h : Saturated r rules seeds m)
    (htyped : ∀ c ∈ m.concepts, c.type ∈ r.types) {x : Expansion} (hx : Within r m x)
    {node : Node} (hnode : Known r m node) (hnew : ¬x.model.Holds node) (origin : Origin) :
    ∃ resolved model, x.model.Grows node origin resolved model := by
  have hi := hx.reachable.indexed
  apply Model.exists_grows hi hx.reachable.resolving origin
  · -- Another concept under the key would be equal to this one.
    by_contra hcontains
    obtain ⟨c, hc, hck⟩ := hi.contains_iff.mp (by simpa using hcontains)
    exact hnew (hi.holds_iff.mpr ⟨c, hc, (hx.concepts c hc).2.equal hnode.2 hck⟩)
  · obtain ⟨n, hn, he, ht⟩ := hnode.exists_mem hr h.reachable.indexed htyped
    rw [← he.missing_eq ht]
    exact h.reachable.resolving.complete n hn
  · intro l hl found hfound
    rw [Model.answer?] at hfound
    split at hfound
    · next hk =>
      obtain rfl := Option.some.inj hfound
      exact hnode.satisfies hr h.reachable htyped hnode hl hk.symm
    · obtain ⟨hmem, hk⟩ := hi.find?_eq_some_iff.mp hfound
      exact hnode.satisfies hr h.reachable htyped (hx.concepts found hmem) hl hk
  · intro n hn l hl hk
    exact (hx.concepts n hn).satisfies hr h.reachable htyped hnode hl hk.symm

section Within

variable (hr : r.Unambiguous) (h : Saturated r rules seeds m)
  (htyped : ∀ c ∈ m.concepts, c.type ∈ r.types) {rules' : Derivations}
  (hrules : ∀ d ∈ rules', d ∈ rules) (hreg : ∀ d ∈ rules', d.Regular r)
include hr h htyped hrules hreg

theorem Saturated.refill_within {x : Expansion} (hx : Within r m x) :
    ∃ y, refill rules' x = .ok y ∧ Within r m y := by
  by_cases hc : x.queue.toList ≠ [] ∨ x.roundSize = some x.model.size
  · exact ⟨x, refill_eq_self hc, hx⟩
  · obtain ⟨hq, hs⟩ := not_or.mp hc
    have hyields : ∀ i ∈ resolvedIndexes x.model, Yields rules' true x.model i (Known r m) := by
      intro i hi
      exact h.yields_known hr htyped hrules hreg hx.reachable hx.concepts
        (mem_resolvedIndexes.mp hi)
    obtain ⟨derived, hderived, hknown⟩ := Yields.exists_deriveAll hyields
    refine ⟨_, refill_of_deriveAll (not_not.mp hq) hs hderived, hx.reachable, hx.concepts, ?_⟩
    intro s hs
    rw [Queue.toList_pushAll, not_not.mp hq, List.nil_append] at hs
    exact hknown s hs

theorem Saturated.step_within {x : Expansion} {seed : Seed} {queue : Queue Seed}
    (hx : Within r m x) (hq : x.queue.toList = seed :: queue.toList) :
    ∃ y, step rules' { x with queue } seed = .ok y ∧ Within r m y := by
  have hseed : Known r m seed.node := hx.queue seed (by rw [hq]; exact List.mem_cons_self)
  have hqueue : ∀ s ∈ queue.toList, Known r m s.node := fun s hs =>
    hx.queue s (by rw [hq]; exact List.mem_cons_of_mem _ hs)
  by_cases hheld : x.model.Holds seed.node
  · exact ⟨_, step_of_holds hheld, hx.reachable, hx.concepts, hqueue⟩
  · obtain ⟨resolved, model, g⟩ := h.grows_within hr htyped hx hseed hheld seed.origin
    have hmodel := hx.reachable.grow g
    have hconcepts : ∀ c ∈ model.concepts, Known r m c := by
      intro c hc
      rw [g.concepts] at hc
      rcases List.mem_append.mp hc with hc | hc
      · exact hx.concepts c hc
      · rw [List.mem_singleton.mp hc]
        exact hseed
    have hyields : ∀ i ∈ resolved, Yields rules' false model i (Known r m) := by
      intro i hi
      have hat := ((g.mem_resolved_iff hx.reachable.indexed hx.reachable.resolving).mp hi).1
      exact h.yields_known hr htyped hrules hreg hmodel hconcepts hat
    obtain ⟨derived, hderived, hknown⟩ := Yields.exists_deriveAll hyields
    obtain ⟨y, hy, hym, hyq, _⟩ := step_of_grows (x := { x with queue }) g hderived
    refine ⟨y, hy, hym ▸ hmodel, hym ▸ hconcepts, ?_⟩
    intro s hs
    rw [hyq] at hs
    rcases List.mem_append.mp hs with hs | hs
    · exact hqueue s hs
    · exact hknown s hs

end Within

end Expansion

theorem Model.Holds.toJson_eq {r : Registry} (hr : r.Unambiguous) {m m' : Model} (hm : m.Indexed)
    (hm' : m'.Indexed) (ht : ∀ c ∈ m.concepts, c.type ∈ r.types)
    (ht' : ∀ c ∈ m'.concepts, c.type ∈ r.types) {k : String} {e : Entry}
    (he : m.entry? k = some e) (hheld : m'.Holds e.node) :
    (m'.entry? k).map Entry.toJson = some e.toJson := by
  obtain ⟨e', he', hs⟩ := hheld
  obtain ⟨hmem, rfl⟩ := hm.entry?_eq_some_iff.mp he
  obtain ⟨hmem', hk'⟩ := hm'.entry?_eq_some_iff.mp he'
  obtain ⟨hname, hcontents⟩ := Node.same_iff.mp hs
  have htype : e'.node.type = e.node.type :=
    hr _ (ht' _ (List.mem_map_of_mem hmem')) _ (ht _ (List.mem_map_of_mem hmem)) hname
  rw [hm.key_eq e hmem, he', Option.map_some, Entry.toJson, Entry.toJson, hk', hm.key_eq e hmem,
    Node.membersJson, Node.membersJson, hname, htype, hcontents]

theorem Model.toJson_eq_of_held {r : Registry} (hr : r.Unambiguous) {m m' : Model} (hm : m.Indexed)
    (hm' : m'.Indexed) (ht : ∀ c ∈ m.concepts, c.type ∈ r.types)
    (ht' : ∀ c ∈ m'.concepts, c.type ∈ r.types) (hsub : ∀ c ∈ m.concepts, m'.Holds c)
    (hsub' : ∀ c ∈ m'.concepts, m.Holds c) : m.toJson = m'.toJson := by
  apply toJson_eq_of_entries hm hm'
  intro k
  have hmem {m : Model} (hm : m.Indexed) {e : Entry} (he : m.entry? k = some e) :
      e.node ∈ m.concepts := List.mem_map_of_mem (hm.entry?_eq_some_iff.mp he).1
  cases he : m.entry? k with
  | some e => exact ((hsub e.node (hmem hm he)).toJson_eq hr hm hm' ht ht' he).symm
  | none =>
    cases he' : m'.entry? k with
    | none => rfl
    | some e' =>
      have hjson := (hsub' e'.node (hmem hm' he')).toJson_eq hr hm' hm ht' ht he'
      simp [he] at hjson

open Expansion in
/-- Where an expansion succeeds, so does every other one that has its seeds and its rules. -/
theorem exists_expand {r : Registry} (hr : r.Unambiguous) {rules rules' : Derivations}
    {options options' : Options} {seeds seeds' : List Seed} {m : Model}
    (hreg : ∀ d ∈ rules, d.Regular r) (htyped : ∀ s ∈ seeds, s.node.type ∈ r.types)
    (hrules : ∀ d, d ∈ rules' ↔ d ∈ rules) (hseeds : ∀ s, s ∈ seeds' ↔ s ∈ seeds)
    (h : expand r rules options seeds = .ok m)
    (hbound : ∀ d, expand r rules' options' seeds' = .error d → d.code ≠ .expansionDiverged) :
    ∃ m', expand r rules' options' seeds' = .ok m' ∧ m.toJson = m'.toJson := by
  obtain ⟨hcheck, hrun, hres⟩ := expand_eq_ok_iff.mp h
  have hcheck' : rules'.check r = .ok () := by
    rw [Derivations.check_eq_ok_iff] at hcheck ⊢
    exact fun d hd => hcheck d ((hrules d).mp hd)
  have hreg' : ∀ d ∈ rules', d.Regular r := fun d hd => hreg d ((hrules d).mp hd)
  have htyped' : ∀ s ∈ seeds', s.node.type ∈ r.types := fun s hs => htyped s ((hseeds s).mp hs)
  have hsat := saturated_of_run hrun
  have hm := hsat.reachable.indexed
  have htm := hsat.typed hreg htyped
  have hstart : Within r m { model := { registry := r }, queue := .ofList seeds' } := by
    refine ⟨.empty, by simp [Model.concepts], ?_⟩
    intro s hs
    rw [Queue.toList_ofList] at hs
    exact ⟨htyped' s hs, hsat.given s ((hseeds s).mp hs)⟩
  have hrules' : ∀ d ∈ rules', d ∈ rules := fun d => (hrules d).mp
  rcases run_progress (P := Within r m) (hsat.refill_within hr htm hrules' hreg')
    (hsat.step_within hr htm hrules' hreg') hstart with ⟨y, hy, hrun'⟩ | ⟨d, hd, hcode⟩
  · have hsat' := saturated_of_run hrun'
    have hsub : ∀ c ∈ m.concepts, y.model.Holds c :=
      hsat.concepts_held hr hsat' hreg' (fun d => (hrules d).mpr) htyped' (fun s => (hseeds s).mpr)
    have hres' : y.model.checkResolved = .ok () := by
      rw [Model.checkResolved_eq_ok_iff hsat.reachable.resolving] at hres
      rw [Model.checkResolved_eq_ok_iff hy.reachable.resolving]
      intro n hn l hl
      obtain ⟨n', hn', he, ht⟩ := (hy.concepts n hn).exists_mem hr hm htm
      exact hm.contains_of_subset hy.reachable.indexed hsub
        (hres n' hn' l (he.links_eq ht ▸ hl))
    refine ⟨y.model, expand_eq_ok_iff.mpr ⟨hcheck', hrun', hres'⟩, ?_⟩
    exact Model.toJson_eq_of_held hr hm hy.reachable.indexed htm
      (fun c hc => (hy.concepts c hc).1) hsub fun c hc => (hy.concepts c hc).2
  · exact absurd hcode (hbound d (expand_of_run_error hcheck' hd))

theorem ListRule.regular {r : Registry} {f : ListRule}
    (typed : ∀ n cs, ∀ c ∈ f.derive n cs, c.type ∈ r.types)
    (uniform : ∀ n n' cs, f.derive n cs = f.derive n' cs)
    (ignores : f.readsModel = false → ∀ n cs cs', f.derive n cs = f.derive n cs')
    (monotone : f.readsModel = true → ∀ n cs cs', (∀ c ∈ cs, ∃ c' ∈ cs', c'.Equal c) →
      ∀ c ∈ f.derive n cs, c ∈ f.derive n cs') :
    f.derivation.Regular r where
  succeeds := fun _ => ⟨_, rfl⟩
  typed := by
    intro n m nodes _ hnodes c hc
    obtain rfl := Except.ok.inj hnodes
    exact typed n m.concepts c hc
  respects := by
    intro n n' m nodes nodes' _ _ _ hnodes hnodes'
    obtain rfl := Except.ok.inj hnodes
    obtain rfl := Except.ok.inj hnodes'
    rw [uniform n n']
    exact List.forall₂_same.mpr fun c _ => .refl c
  ignores := by
    intro hreads n m m' nodes nodes' _ _ hnodes hnodes'
    obtain rfl := Except.ok.inj hnodes
    obtain rfl := Except.ok.inj hnodes'
    exact ignores hreads n _ _
  monotone := by
    intro hreads n m m' nodes nodes' hsub _ hcall' hnodes hnodes' c hc
    obtain rfl := Except.ok.inj hnodes
    obtain rfl := Except.ok.inj hnodes'
    have hsub' : ∀ c ∈ m.concepts, ∃ c' ∈ m'.concepts, c'.Equal c := fun c hc =>
      hcall'.reachable.indexed.holds_iff.mp (hsub c hc)
    exact ⟨c, monotone hreads n _ _ hsub' c hc, .refl c⟩

theorem Small.regular : ∀ d ∈ Small.rules.map ListRule.derivation, d.Regular Small.registry := by
  intro d hd
  obtain ⟨f, hf, rfl⟩ := List.mem_map.mp hd
  simp only [rules, List.mem_cons, List.not_mem_nil, or_false] at hf
  rcases hf with rfl | rfl | rfl
  · exact ListRule.regular (by simp [audited, module, registry]; decide) (fun _ _ _ => rfl)
      (fun _ _ _ _ => rfl) (by simp [audited])
  · exact ListRule.regular (by simp [housed, module, registry]; decide) (fun _ _ _ => rfl)
      (fun _ _ _ _ => rfl) (by simp [housed])
  · have hlog : (entity "Audit" "Log").type ∈ registry.types := by decide
    refine ListRule.regular ?_ (fun _ _ _ => rfl) (by simp [logged]) ?_
    · intro n cs c hc
      simp only [logged] at hc
      split at hc
      · rwa [List.mem_singleton.mp hc]
      · simp at hc
    · intro _ n cs cs' hsub c hc
      simp only [logged, List.any_eq_true, beq_iff_eq] at hc ⊢
      split at hc
      · next hany =>
        obtain ⟨b, hb, hname⟩ := hany
        obtain ⟨b', hb', he⟩ := hsub b hb
        rwa [if_pos ⟨b', hb', (Node.same_iff.mp he.same).1.trans hname⟩]
      · simp at hc

/-- The order of the seeds, and of the rules for each type, does not matter. Two expansions that are
not cut off either both fail, or both succeed with models that are written alike. -/
theorem expand_confluent {declared : List Declaration} {r : Registry}
    (hbuild : Registry.build declared = .ok r) {rules rules' : Derivations}
    {options options' : Options} {seeds seeds' : List Seed} (hreg : ∀ d ∈ rules, d.Regular r)
    (htyped : ∀ s ∈ seeds, s.node.type ∈ r.types) (hseeds : seeds.Perm seeds')
    (hrules : ∀ t, (rules.filter (·.onType == t)).Perm (rules'.filter (·.onType == t)))
    (hbound : ∀ d, expand r rules options seeds = .error d → d.code ≠ .expansionDiverged)
    (hbound' : ∀ d, expand r rules' options' seeds' = .error d → d.code ≠ .expansionDiverged) :
    (∃ d d', expand r rules options seeds = .error d ∧
      expand r rules' options' seeds' = .error d') ∨
    ∃ m m', expand r rules options seeds = .ok m ∧ expand r rules' options' seeds' = .ok m' ∧
      m.toJson = m'.toJson := by
  have hr : r.Unambiguous := fun t ht u hu => Registry.eq_of_name_eq hbuild ht hu
  have hmem (d : Derivation) : d ∈ rules' ↔ d ∈ rules := by
    have hd := (hrules d.onType).mem_iff (a := d)
    simp only [List.mem_filter, beq_self_eq_true, and_true] at hd
    exact hd.symm
  cases h : expand r rules options seeds with
  | ok m =>
    obtain ⟨m', h', hjson⟩ :=
      exists_expand hr hreg htyped hmem (fun s => hseeds.mem_iff.symm) h hbound'
    exact .inr ⟨m, m', rfl, h', hjson⟩
  | error d =>
    cases h' : expand r rules' options' seeds' with
    | error d' => exact .inl ⟨d, d', rfl, rfl⟩
    | ok m' =>
      -- The first expansion would succeed like the second.
      obtain ⟨m, hm, _⟩ := exists_expand hr (fun d hd => hreg d ((hmem d).mp hd))
        (fun s hs => htyped s (hseeds.mem_iff.mpr hs)) (fun d => (hmem d).symm)
        (fun s => hseeds.mem_iff) h' hbound
      rw [h] at hm
      simp at hm

theorem expand_confluent_small :
    ∃ m m',
      expand Small.registry (Small.rules.map ListRule.derivation) {} Small.seeds = .ok m ∧
      expand Small.registry (Small.rules.reverse.map ListRule.derivation) {} Small.seeds.reverse =
        .ok m' ∧
      m.concepts.map Node.key ≠ m'.concepts.map Node.key ∧ m.toJson = m'.toJson := by
  obtain ⟨m, hm, hcs⟩ := Small.exists_expanded
  obtain ⟨m', hm', hcs'⟩ : ∃ m',
      expand Small.registry (Small.rules.reverse.map ListRule.derivation) {} Small.seeds.reverse =
        .ok m' ∧
      m'.concepts = [Small.module "Common", Small.entity "Common" "Person",
        Small.module "Audit", Small.entity "Audit" "Log"] :=
    expand_listing_iff.mpr ⟨by decide, by rfl, by decide⟩
  have hrules : (Small.rules.map ListRule.derivation).Perm
      (Small.rules.reverse.map ListRule.derivation) := (List.reverse_perm _).symm.map _
  have hseeds : Small.seeds.Perm Small.seeds.reverse := (List.reverse_perm _).symm
  rcases expand_confluent Small.build_declared Small.regular (by decide) hseeds
    (fun t => hrules.filter _) (fun d hd => absurd (hm.symm.trans hd) (by simp))
    (fun d hd => absurd (hm'.symm.trans hd) (by simp)) with
    ⟨_, _, herror, _⟩ | ⟨_, _, hok, hok', hjson⟩
  · rw [hm] at herror
    simp at herror
  · rw [hm] at hok
    rw [hm'] at hok'
    obtain rfl := Except.ok.inj hok
    obtain rfl := Except.ok.inj hok'
    exact ⟨m, m', hm, hm', by rw [hcs, hcs']; decide, hjson⟩

end ConceptScript
