import ConceptScript.Proofs.Expansion.Saturation

namespace ConceptScript

/-- The rule sees the concepts of a model and not where they come from. -/
def Derivation.IgnoresOrigins (r : Registry) (d : Derivation) : Prop :=
  ∀ (n : Node) (m m' : Model), m.Reachable r → m'.Reachable r → m.concepts = m'.concepts →
    ∀ nodes, d.derive n m = .ok nodes → d.derive n m' = .ok nodes

theorem ListRule.ignoresOrigins (r : Registry) (f : ListRule) : f.derivation.IgnoresOrigins r := by
  intro n m m' _ _ hconcepts nodes hnodes
  rwa [f.derive_derivation, ← hconcepts]

namespace Model

theorem anonymous_holds {m : Model} {n : Node} : m.anonymous.Holds n ↔ m.Holds n := by
  unfold Holds
  rw [entry_anonymous]
  simp only [Option.map_eq_some_iff]
  constructor
  · rintro ⟨_, ⟨e, he, rfl⟩, hs⟩
    exact ⟨e, he, hs⟩
  · rintro ⟨e, he, hs⟩
    exact ⟨e.anonymous, ⟨e, he, rfl⟩, hs⟩

/-- Two models that follow each other in a history differ by one insertion. -/
theorem Reachable.grows_past {r : Registry} {m p : Model} (h : m.Reachable r) {k : Nat}
    (hp : m.past k = .ok p) {n : Node} (hn : m.concepts[k]? = some n) :
    ∃ origin resolved q, m.past (k + 1) = .ok q ∧ p.Grows n origin resolved q := by
  have hlt : k < m.seeds.length := by
    rw [length_seeds, ← length_concepts]
    exact (List.getElem?_eq_some_iff.mp hn).1
  obtain ⟨s, hs⟩ : ∃ s, m.seeds[k]? = some s := ⟨_, List.getElem?_eq_getElem hlt⟩
  have hsn : s.node = n := by
    rw [← map_node_seeds, List.getElem?_map, hs] at hn
    exact Option.some.inj hn
  have htake : m.seeds.take (k + 1) = m.seeds.take k ++ [s] := by
    rw [List.take_add_one, hs]
    rfl
  obtain ⟨q, hq, -, hqs⟩ := h.exists_past (k + 1)
  have hins := hq
  rw [past, htake, insertAll_append hp, insertAll] at hins
  obtain ⟨⟨insertion, q'⟩, hi, hq'⟩ := bind_eq_ok.mp hins
  obtain rfl : q' = q := Except.ok.inj hq'
  obtain ⟨_, _, _, _, rfl⟩ | ⟨resolved, _, g⟩ := insert_eq_ok_iff.mp hi
  · -- A duplicate would leave the model one concept short.
    have hlen := congrArg List.length hqs
    have hplen := congrArg List.length (h.concepts_past hp)
    simp only [List.length_take, length_seeds, length_concepts] at hlen hplen hlt
    omega
  · exact ⟨s.origin, resolved, q', hq, hsn ▸ g⟩

end Model

namespace Expansion

theorem Yields.anonymous {r : Registry} {rules : Derivations} {onlyReaders : Bool} {p : Model}
    {i : Nat} {Q : Node → Prop} (hrules : ∀ d ∈ rules, d.IgnoresOrigins r) (hp : p.Reachable r)
    (h : Yields rules onlyReaders p i Q) : Yields rules onlyReaders p.anonymous i Q := by
  intro n hn d hd
  rw [Model.anonymous_concepts] at hn
  obtain ⟨nodes, hnodes, hq⟩ := h n hn d hd
  have hsame : p.concepts = p.anonymous.concepts := p.anonymous_concepts.symm
  exact ⟨nodes, hrules d hd.1 n p p.anonymous hp hp.anonymous hsame nodes hnodes, hq⟩

theorem refill_refill {rules : Derivations} {x y : Expansion} (h : refill rules x = .ok y) :
    refill rules y = .ok y := by
  apply refill_eq_self
  by_cases hq : y.queue.toList = []
  · exact .inr (roundSize_of_refill h hq)
  · exact .inl hq

theorem Takes.of_refill {rules : Derivations} {x y : Expansion} {n : Nat} {m : Model}
    (h : refill rules x = .ok y) (hy : Takes rules y n m) : Takes rules x n m := by
  intro limit budget
  have hrun : run rules limit budget x = run rules limit budget y := by
    rw [run_of_refill h, run_of_refill (refill_refill h)]
  rw [hrun]
  exact hy limit budget

theorem exists_takes_of_held {rules : Derivations} {m : Model} {x : Expansion}
    (hheld : ∀ s ∈ x.queue.toList, x.model.Holds s.node)
    (hend : ∀ z : Expansion, z.model = x.model → z.queue.toList = [] → z.roundSize = x.roundSize →
      ∃ n, Takes rules z n m) : ∃ n, Takes rules x n m := by
  generalize hseeds : x.queue.toList = seeds at hheld
  induction seeds generalizing x with
  | nil => exact hend x rfl hseeds rfl
  | cons s seeds ih =>
    obtain ⟨queue, hpop, hqueue⟩ := Queue.exists_pop? hseeds
    have hself : refill rules x = .ok x := refill_eq_self (.inl (by simp [hseeds]))
    have hstep : step rules { x with queue } s = .ok { x with queue } :=
      step_of_holds (hheld s List.mem_cons_self)
    have hrest : ∃ n, Takes rules { x with queue } n m :=
      ih hend hqueue fun t ht => hheld t (List.mem_cons_of_mem s ht)
    obtain ⟨n, hn⟩ := hrest
    exact ⟨n + 1, .step hself hpop hstep hn⟩

variable {r : Registry} {rules : Derivations} {seeds : List Seed} {m : Model}

theorem Saturated.exists_takes_round (hrules : ∀ d ∈ rules, d.IgnoresOrigins r)
    (h : Saturated r rules seeds m) {x : Expansion} (hm : x.model = m.anonymous)
    (hq : x.queue.toList = []) (hsize : x.roundSize = none) :
    ∃ n, Takes rules x n m.anonymous := by
  have hyields : ∀ i ∈ resolvedIndexes x.model, Yields rules true x.model i m.Holds := by
    intro i hi
    rw [mem_resolvedIndexes, hm, Model.anonymous_resolvedAt] at hi
    rw [hm]
    exact (h.round i hi).anonymous hrules h.reachable
  obtain ⟨derived, hderived, hheld⟩ := Yields.exists_deriveAll hyields
  have hrefill := refill_of_deriveAll hq (by simp [hsize]) hderived
  have hrest : ∃ n, Takes rules
      { x with queue := x.queue.pushAll derived, roundSize := some x.model.size } n
      m.anonymous := by
    apply exists_takes_of_held
    · intro s hs
      rw [Queue.toList_pushAll, hq, List.nil_append] at hs
      rw [hm, Model.anonymous_holds]
      exact hheld s hs
    · intro z hz hzq hzs
      refine ⟨0, ?_⟩
      rw [← hm, ← hz]
      exact .done (refill_eq_self (.inr (by rw [hzs, hz]))) hzq
  obtain ⟨n, hn⟩ := hrest
  exact ⟨n, .of_refill hrefill hn⟩

/-- The concepts that are not back yet come first in the queue, then what the rules derived from
those that are. -/
structure Replays (m : Model) (k : Nat) (x : Expansion) : Prop where
  model : ∃ p, m.past k = .ok p ∧ x.model = p.anonymous
  queue : ∃ extra, x.queue.toList = (m.concepts.drop k).map (⟨·, .initial⟩) ++ extra ∧
    ∀ s ∈ extra, m.Holds s.node
  roundSize : x.roundSize = none

theorem Saturated.replays_step (hrules : ∀ d ∈ rules, d.IgnoresOrigins r)
    (h : Saturated r rules seeds m) {k : Nat} {x : Expansion} (hx : Replays m k x)
    (hk : k < m.size) :
    ∃ seed queue y, x.queue.pop? = some (seed, queue) ∧
      step rules { x with queue } seed = .ok y ∧ Replays m (k + 1) y := by
  obtain ⟨p, hp, hmodel⟩ := hx.model
  obtain ⟨extra, hqueue, hextra⟩ := hx.queue
  have hk' : k < m.concepts.length := by simpa using hk
  rw [List.drop_eq_getElem_cons hk', List.map_cons, List.cons_append] at hqueue
  obtain ⟨queue, hpop, hrest⟩ := Queue.exists_pop? hqueue
  obtain ⟨origin, resolved, q, hq, g⟩ :=
    h.reachable.grows_past hp (List.getElem?_eq_getElem hk')
  have hpr := h.reachable.reachable_past hp
  have hqr := h.reachable.reachable_past hq
  -- What this insertion completes, it completed the first time.
  have hyields : ∀ i ∈ resolved, Yields rules false q.anonymous i m.Holds := by
    intro i hi
    obtain ⟨hres, hbefore⟩ := (g.mem_resolved_iff hpr.indexed hpr.resolving).mp hi
    have hc : m.Completed i k q := by
      refine ⟨hq, hres, ?_⟩
      intro p' hp'
      obtain rfl : p = p' := Except.ok.inj (hp.symm.trans hp')
      exact hbefore
    exact (h.completed i k q hc).anonymous hrules hqr
  obtain ⟨derived, hderived, hheld⟩ := Yields.exists_deriveAll hyields
  have ga : Model.Grows x.model m.concepts[k] .initial resolved q.anonymous := by
    rw [hmodel]
    exact g.anonymous
  obtain ⟨y, hy, hym, hyq, hys⟩ := step_of_grows (x := { x with queue }) ga hderived
  refine ⟨_, queue, y, hpop, hy, ⟨q, hq, hym⟩, ⟨extra ++ derived, ?_, ?_⟩,
    by rw [hys, hx.roundSize]⟩
  · rw [hyq, hrest, List.append_assoc]
  · intro s hs
    rcases List.mem_append.mp hs with hs | hs
    · exact hextra s hs
    · exact hheld s hs

theorem Saturated.exists_takes (hrules : ∀ d ∈ rules, d.IgnoresOrigins r)
    (h : Saturated r rules seeds m) {k : Nat} (hk : k ≤ m.size) {x : Expansion}
    (hx : Replays m k x) : ∃ n, Takes rules x n m.anonymous := by
  -- By induction on the number of concepts that are not back yet.
  induction hn : m.size - k generalizing k x with
  | zero =>
    obtain rfl : k = m.size := by omega
    obtain ⟨p, hp, hmodel⟩ := hx.model
    obtain rfl : p = m :=
      Except.ok.inj (hp.symm.trans (h.reachable.past_of_ge (Nat.le_refl _)))
    obtain ⟨extra, hqueue, hextra⟩ := hx.queue
    rw [List.drop_of_length_le (by simp), List.map_nil, List.nil_append] at hqueue
    apply exists_takes_of_held
    · intro s hs
      rw [hmodel, Model.anonymous_holds]
      exact hextra s (hqueue ▸ hs)
    · intro z hz hzq hzs
      exact h.exists_takes_round hrules (hz.trans hmodel) hzq (hzs.trans hx.roundSize)
  | succ n ih =>
    obtain ⟨seed, queue, y, hpop, hy, hreplays⟩ := h.replays_step hrules hx (by omega)
    obtain ⟨steps, hsteps⟩ := ih (by omega) hreplays (by omega)
    have hne : x.queue.toList ≠ [] := by
      rw [Queue.toList_of_pop?_eq_some hpop]
      exact List.cons_ne_nil _ _
    exact ⟨steps + 1, .step (refill_eq_self (.inl hne)) hpop hy hsteps⟩

end Expansion

open Expansion in
/-- The concepts of an expanded model, expanded again under any rules that ignore origins, give the
same concepts in the same order, given enough steps. With fewer, the expansion is cut off. -/
theorem expand_idempotent {r : Registry} {rules : Derivations} {options : Options}
    {seeds : List Seed} {m : Model} (hrules : ∀ d ∈ rules, d.IgnoresOrigins r)
    (h : expand r rules options seeds = .ok m) :
    ∃ bound, ∀ options' : Options,
      if bound ≤ options'.maxExpansionSteps then
        ∃ m', expand r rules options' (m.concepts.map (⟨·, .initial⟩)) = .ok m' ∧
          m'.concepts = m.concepts
      else
        ∃ d, expand r rules options' (m.concepts.map (⟨·, .initial⟩)) = .error d ∧
          d.code = .expansionDiverged := by
  obtain ⟨hcheck, hrun, hres⟩ := expand_eq_ok_iff.mp h
  have hsat := saturated_of_run hrun
  have hstart : Replays m 0
      { model := { registry := r }, queue := .ofList (m.concepts.map (⟨·, .initial⟩)) } := by
    refine ⟨⟨{ registry := r }, ?_, ?_⟩, ⟨[], by simp, by simp⟩, rfl⟩
    · rw [Model.past, hsat.reachable.registry_eq]
      rfl
    · simp [Model.anonymous]
  obtain ⟨bound, htakes⟩ := hsat.exists_takes hrules (Nat.zero_le _) hstart
  refine ⟨bound, fun options' => ?_⟩
  have ht := htakes options'.maxExpansionSteps options'.maxExpansionSteps
  by_cases hb : bound ≤ options'.maxExpansionSteps
  · rw [if_pos hb] at ht ⊢
    refine ⟨m.anonymous, expand_eq_ok_iff.mpr ⟨hcheck, ht, ?_⟩, m.anonymous_concepts⟩
    rw [Model.checkResolved_eq_ok_iff hsat.reachable.resolving] at hres
    rw [Model.checkResolved_eq_ok_iff hsat.reachable.anonymous.resolving, m.anonymous_concepts]
    exact hres
  · rw [if_neg hb] at ht ⊢
    obtain ⟨d, hd, hcode⟩ := ht
    exact ⟨d, expand_of_run_error hcheck hd, hcode⟩

theorem expand_idempotent_small :
    ∃ m bound, expand Small.registry (Small.rules.map ListRule.derivation) {} Small.seeds = .ok m ∧
      m.size = 4 ∧ ∀ options : Options,
        if bound ≤ options.maxExpansionSteps then
          ∃ m', expand Small.registry (Small.rules.map ListRule.derivation) options
              (m.concepts.map (⟨·, .initial⟩)) = .ok m' ∧ m'.concepts = m.concepts
        else
          ∃ d, expand Small.registry (Small.rules.map ListRule.derivation) options
              (m.concepts.map (⟨·, .initial⟩)) = .error d ∧ d.code = .expansionDiverged := by
  obtain ⟨m, hm, hcs⟩ := Small.exists_expanded
  have hrules : ∀ d ∈ Small.rules.map ListRule.derivation, d.IgnoresOrigins Small.registry := by
    intro d hd
    obtain ⟨f, _, rfl⟩ := List.mem_map.mp hd
    exact f.ignoresOrigins Small.registry
  obtain ⟨bound, hbound⟩ := expand_idempotent hrules hm
  exact ⟨m, bound, hm, by rw [← m.length_concepts, hcs]; rfl, hbound⟩

end ConceptScript
