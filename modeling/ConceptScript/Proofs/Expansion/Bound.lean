import ConceptScript.Proofs.Expansion.Idempotence

namespace ConceptScript

namespace Expansion

/-- From one state to another, by a number of seeds that are taken and a number of rounds of the
rules that read the model. -/
inductive Advances (rules : Derivations) (x : Expansion) : Nat → Nat → Expansion → Prop
  | start : Advances rules x 0 0 x
  | round {taken rounds : Nat} {y z : Expansion} :
    Advances rules x taken rounds y → y.queue.toList = [] → y.roundSize ≠ some y.model.size →
    refill rules y = .ok z → Advances rules x taken (rounds + 1) z
  | take {taken rounds : Nat} {y z : Expansion} {seed : Seed} {queue : Queue Seed} :
    Advances rules x taken rounds y → y.queue.pop? = some (seed, queue) →
    step rules { y with queue } seed = .ok z → Advances rules x (taken + 1) rounds z

/-- Why an expansion goes no further, and what it comes to: all is done, a round fails, the next
seed fails, or the next seed is one too many. -/
inductive Stops (rules : Derivations) (limit taken : Nat) (y : Expansion) :
    Except Diagnostic Model → Prop
  | saturated : y.queue.toList = [] → y.roundSize = some y.model.size →
    Stops rules limit taken y (.ok y.model)
  | round {d : Diagnostic} : refill rules y = .error d → Stops rules limit taken y (.error d)
  | take {d : Diagnostic} {seed : Seed} {queue : Queue Seed} :
    taken < limit → y.queue.pop? = some (seed, queue) →
    step rules { y with queue } seed = .error d → Stops rules limit taken y (.error d)
  | bound : taken = limit → y.queue.toList ≠ [] →
    Stops rules limit taken y (.error (diverged limit y))

section Advances

variable {rules : Derivations} {x y : Expansion} {taken rounds : Nat}

theorem run_of_pop? {seed : Seed} {queue : Queue Seed} (h : y.queue.pop? = some (seed, queue))
    (limit budget : Nat) : run rules limit (budget + 1) y =
      step rules { y with queue } seed >>= run rules limit budget := by
  have hself : refill rules y = .ok y := by
    apply refill_eq_self
    rw [Queue.toList_of_pop?_eq_some h]
    exact .inl (List.cons_ne_nil _ _)
  rw [run_of_refill hself, h]

theorem run_of_refill_error {d : Diagnostic} (h : refill rules y = .error d)
    (limit budget : Nat) : run rules limit budget y = .error d := by
  rw [run, h]
  rfl

/-- A run goes through the states that the expansion advances to, with what is left of its
budget. -/
theorem Advances.run_eq (h : Advances rules x taken rounds y) (limit budget : Nat) :
    run rules limit (taken + budget) x = run rules limit budget y := by
  induction h generalizing budget with
  | start => rw [Nat.zero_add]
  | round _ _ _ hrefill ih =>
    rw [ih, run_of_refill hrefill, run_of_refill (refill_refill hrefill)]
  | take _ hpop hstep ih =>
    rw [Nat.add_assoc, Nat.add_comm 1, ih, run_of_pop? hpop, hstep, ok_bind]

theorem Advances.refill {z : Expansion} (h : Advances rules x taken rounds y)
    (hrefill : Expansion.refill rules y = .ok z) :
    ∃ rounds', Advances rules x taken rounds' z := by
  by_cases hself : y.queue.toList ≠ [] ∨ y.roundSize = some y.model.size
  · rw [refill_eq_self hself] at hrefill
    exact ⟨rounds, Except.ok.inj hrefill ▸ h⟩
  · rw [not_or, not_not] at hself
    exact ⟨rounds + 1, .round h hself.1 hself.2 hrefill⟩

theorem Advances.exists_stops {limit budget : Nat} (h : Advances rules x taken rounds y)
    (hlimit : taken + budget = limit) :
    ∃ taken' rounds' z, taken' ≤ limit ∧ Advances rules x taken' rounds' z ∧
      Stops rules limit taken' z (run rules limit budget y) := by
  induction budget using Nat.strongRecOn generalizing taken rounds y with
  | ind budget ih =>
    have hle : taken ≤ limit := by omega
    cases hrefill : Expansion.refill rules y with
    | error d =>
      rw [run_of_refill_error hrefill]
      exact ⟨taken, rounds, y, hle, h, .round hrefill⟩
    | ok z =>
      obtain ⟨rounds', hz⟩ := h.refill hrefill
      rw [run_of_refill hrefill]
      cases hpop : z.queue.pop? with
      | none =>
        have hq := Queue.toList_of_pop?_eq_none hpop
        exact ⟨taken, rounds', z, hle, hz, .saturated hq (roundSize_of_refill hrefill hq)⟩
      | some p =>
        obtain ⟨seed, queue⟩ := p
        cases budget with
        | zero =>
          refine ⟨taken, rounds', z, hle, hz, .bound hlimit ?_⟩
          rw [Queue.toList_of_pop?_eq_some hpop]
          exact List.cons_ne_nil _ _
        | succ budget =>
          dsimp only
          cases hstep : step rules { z with queue } seed with
          | error d =>
            have hlt : taken < limit := by omega
            exact ⟨taken, rounds', z, hle, hz, .take hlt hpop hstep⟩
          | ok next => exact ih budget (Nat.lt_succ_self _) (.take hz hpop hstep) (by omega)

/-- The model has no more concepts than seeds were taken, and there was at most one round for each
size that it had. -/
theorem Advances.counts (h : Advances rules x taken rounds y) (hsize : x.model.size = 0) :
    y.model.size ≤ taken ∧ rounds ≤ y.model.size + 1 := by
  -- A round is told from the ones before by the size of the model it begins with.
  suffices hcounts : y.model.size ≤ taken ∧
      (rounds = 0 ∨ ∃ size, y.roundSize = some size ∧ size ≤ y.model.size ∧ rounds ≤ size + 1) by
    rcases hcounts with ⟨hle, rfl | ⟨size, _, hs, hr⟩⟩
    · exact ⟨hle, Nat.zero_le _⟩
    · exact ⟨hle, by omega⟩
  induction h with
  | start => exact ⟨Nat.le_of_eq hsize, .inl rfl⟩
  | @round _ _ y z _ hq hs hrefill ih =>
    obtain ⟨rfl, hself⟩ | ⟨_, _, _, hm, _, hz⟩ := refill_eq_ok hrefill
    · exact absurd hself (by simp [hq, hs])
    · obtain ⟨hle, hcount⟩ := ih
      rw [hm]
      refine ⟨hle, .inr ⟨_, hz, Nat.le_refl _, ?_⟩⟩
      rcases hcount with rfl | ⟨size, hsome, hsize, hr⟩
      · omega
      · have hne : size ≠ y.model.size := fun heq => hs (heq ▸ hsome)
        omega
  | @take _ _ y z _ _ _ _ hstep ih =>
    obtain ⟨hle, hcount⟩ := ih
    obtain ⟨rfl, _⟩ | ⟨_, _, g, _, _, hz⟩ := step_eq_ok hstep
    · exact ⟨Nat.le_succ_of_le hle, hcount⟩
    · rw [g.size, hz]
      refine ⟨Nat.succ_le_succ hle, hcount.imp id ?_⟩
      rintro ⟨size, hsome, hsize, hr⟩
      exact ⟨size, hsome, Nat.le_succ_of_le hsize, hr⟩

theorem Stops.run_eq {limit limit' : Nat} {result : Except Diagnostic Model}
    (hadvances : Advances rules x taken rounds y) (htaken : taken ≤ limit)
    (hlimit : limit ≤ limit') (h : Stops rules limit taken y result) :
    run rules limit' limit' x = result ∨ taken = limit ∧ y.queue.toList ≠ [] := by
  obtain ⟨budget, rfl⟩ := Nat.exists_eq_add_of_le (Nat.le_trans htaken hlimit)
  rw [hadvances.run_eq]
  cases h with
  | saturated hq hs =>
    rw [run_of_refill (refill_eq_self (.inr hs)), Queue.pop?_eq_none hq]
    exact .inl rfl
  | round hrefill => exact .inl (run_of_refill_error hrefill _ _)
  | take hlt hpop hstep =>
    cases budget with
    | zero => omega
    | succ budget =>
      rw [run_of_pop? hpop, hstep]
      exact .inl rfl
  | bound heq hq => exact .inr ⟨heq, hq⟩

end Advances

def start (r : Registry) (seeds : List Seed) : Expansion :=
  { model := { registry := r }, queue := .ofList seeds }

/-- The bound ends the expansion: as many seeds as it allows are taken, and there is another. -/
def CutOff (r : Registry) (rules : Derivations) (seeds : List Seed) (limit : Nat) : Prop :=
  rules.check r = .ok () ∧
    ∃ rounds y, Advances rules (start r seeds) limit rounds y ∧ y.queue.toList ≠ []

end Expansion

open Expansion

theorem expand_eq_run (r : Registry) (rules : Derivations) (options : Options)
    (seeds : List Seed) :
    expand r rules options seeds = (do
      rules.check r
      let m ← run rules options.maxExpansionSteps options.maxExpansionSteps (start r seeds)
      m.checkResolved
      return m) := rfl

theorem expand_of_cutOff {r : Registry} {rules : Derivations} {options : Options}
    {seeds : List Seed} (h : CutOff r rules seeds options.maxExpansionSteps) :
    ∃ y, expand r rules options seeds = .error (diverged options.maxExpansionSteps y) := by
  obtain ⟨hcheck, rounds, y, hadvances, hq⟩ := h
  obtain ⟨seed, rest, hseed⟩ := List.exists_cons_of_ne_nil hq
  obtain ⟨queue, hpop, _⟩ := Queue.exists_pop? hseed
  refine ⟨y, expand_of_run_error hcheck ?_⟩
  have hrun := hadvances.run_eq options.maxExpansionSteps 0
  rw [Nat.add_zero, run_of_refill (refill_eq_self (.inl hq)), hpop] at hrun
  exact hrun

theorem expand_of_le {r : Registry} {rules : Derivations} {options options' : Options}
    {seeds : List Seed} (hle : options.maxExpansionSteps ≤ options'.maxExpansionSteps)
    (h : ¬CutOff r rules seeds options.maxExpansionSteps) :
    expand r rules options' seeds = expand r rules options seeds := by
  rw [expand_eq_run, expand_eq_run]
  cases hcheck : rules.check r with
  | error d =>
    have hfails (f : Unit → Except Diagnostic Model) : (Except.error d >>= f) = .error d := rfl
    rw [hfails, hfails]
  | ok _ =>
    obtain ⟨taken, rounds, y, htaken, hadvances, hstops⟩ :=
      Advances.exists_stops (.start : Advances rules (start r seeds) 0 0 _) (Nat.zero_add _)
    rcases hstops.run_eq hadvances htaken hle with hrun | ⟨rfl, hq⟩
    · rw [hrun]
    · exact absurd ⟨hcheck, rounds, y, hadvances, hq⟩ h

/-- An expansion always ends, and its bound is only a bound. It stops after at most as many seeds
as it may take, with no more concepts than seeds and at most one round more than concepts. What it
comes to, a model or a failure, it comes to under every larger bound, unless the bound is what ends
it. -/
theorem expand_bounded (r : Registry) (rules : Derivations) (options : Options)
    (seeds : List Seed) :
    (∃ taken rounds y result, taken ≤ options.maxExpansionSteps ∧ y.model.size ≤ taken ∧
      rounds ≤ y.model.size + 1 ∧ Advances rules (start r seeds) taken rounds y ∧
      Stops rules options.maxExpansionSteps taken y result ∧
      expand r rules options seeds = (do
        rules.check r
        let m ← result
        m.checkResolved
        return m)) ∧
    (∀ m, expand r rules options seeds = .ok m → m.size ≤ options.maxExpansionSteps) ∧
    (CutOff r rules seeds options.maxExpansionSteps →
      ∃ y, expand r rules options seeds = .error (diverged options.maxExpansionSteps y)) ∧
    ∀ options' : Options, options.maxExpansionSteps ≤ options'.maxExpansionSteps →
      (∀ m, expand r rules options seeds = .ok m → expand r rules options' seeds = .ok m) ∧
      ∀ d, expand r rules options seeds = .error d →
        ¬CutOff r rules seeds options.maxExpansionSteps →
          expand r rules options' seeds = .error d := by
  obtain ⟨taken, rounds, y, htaken, hadvances, hstops⟩ :=
    Advances.exists_stops (.start : Advances rules (start r seeds) 0 0 _)
      (Nat.zero_add options.maxExpansionSteps)
  obtain ⟨hsize, hrounds⟩ := hadvances.counts rfl
  refine ⟨⟨taken, rounds, y, _, htaken, hsize, hrounds, hadvances, hstops, ?_⟩, ?_,
    expand_of_cutOff, ?_⟩
  · exact expand_eq_run r rules options seeds
  · intro m hm
    obtain ⟨_, hrun, _⟩ := expand_eq_ok_iff.mp hm
    change run rules _ _ (start r seeds) = _ at hrun
    rw [hrun] at hstops
    cases hstops with
    | saturated _ _ => exact Nat.le_trans hsize htaken
  · intro options' hle
    constructor
    · intro m hm
      rw [expand_of_le hle, hm]
      intro hcut
      obtain ⟨y, hy⟩ := expand_of_cutOff hcut
      cases hm.symm.trans hy
    · intro d hd hcut
      rw [expand_of_le hle hcut, hd]

theorem expand_bounded_small :
    (∃ d, expand Small.registry (Small.rules.map ListRule.derivation)
        { maxExpansionSteps := 0 } Small.seeds = .error d ∧ d.code = .expansionDiverged) ∧
      ∃ m, expand Small.registry (Small.rules.map ListRule.derivation) {} Small.seeds = .ok m ∧
        m.size ≤ ({} : Options).maxExpansionSteps ∧ ∀ options : Options,
          ({} : Options).maxExpansionSteps ≤ options.maxExpansionSteps →
            expand Small.registry (Small.rules.map ListRule.derivation) options Small.seeds =
              .ok m := by
  constructor
  · obtain ⟨_, _, hcut, _⟩ := expand_bounded Small.registry (Small.rules.map ListRule.derivation)
      { maxExpansionSteps := 0 } Small.seeds
    have hcheck : Derivations.check (Small.rules.map ListRule.derivation) Small.registry = .ok () :=
      Derivations.check_eq_ok_iff.mpr (by decide)
    obtain ⟨y, hy⟩ := hcut ⟨hcheck, 0, _, .start, by simp [start, Small.seeds]⟩
    exact ⟨_, hy, rfl⟩
  · obtain ⟨m, hm, _⟩ := Small.exists_expanded
    obtain ⟨_, hsize, _, hlarger⟩ := expand_bounded Small.registry
      (Small.rules.map ListRule.derivation) {} Small.seeds
    exact ⟨m, hm, hsize m hm, fun options hle => (hlarger options hle).1 m hm⟩

end ConceptScript
