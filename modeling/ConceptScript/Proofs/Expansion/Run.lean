import ConceptScript.Proofs.Model.History

namespace ConceptScript

theorem Queue.exists_pop? {α : Type} {q : Queue α} {a : α} {as : List α} (h : q.toList = a :: as) :
    ∃ rest, q.pop? = some (a, rest) ∧ rest.toList = as := by
  cases hp : q.pop? with
  | none =>
    rw [toList_of_pop?_eq_none hp] at h
    simp at h
  | some p =>
    rw [toList_of_pop?_eq_some (a := p.1) (r := p.2) hp] at h
    obtain ⟨rfl, rfl⟩ := List.cons.inj h
    exact ⟨p.2, rfl, rfl⟩

theorem Queue.pop?_eq_none {α : Type} {q : Queue α} (h : q.toList = []) : q.pop? = none := by
  cases hp : q.pop? with
  | none => rfl
  | some p =>
    rw [toList_of_pop?_eq_some (a := p.1) (r := p.2) hp] at h
    simp at h

theorem Derivations.mem_forType {rules : Derivations} {t : ConceptType} {d : Derivation} :
    d ∈ rules.forType t ↔ d ∈ rules ∧ t.isA d.onType = true := by
  simp only [forType, List.mem_flatMap, List.mem_filter, beq_iff_eq, ConceptType.isA,
    List.contains_iff_mem]
  constructor
  · rintro ⟨name, hn, hd, rfl⟩
    exact ⟨hd, hn⟩
  · rintro ⟨hd, hn⟩
    exact ⟨d.onType, hn, hd, rfl⟩

namespace Expansion

/-- A rule that is used on an entry of a type, in a round of model readers or else. -/
def Uses (rules : Derivations) (onlyReaders : Bool) (t : ConceptType) (d : Derivation) : Prop :=
  d ∈ rules ∧ t.isA d.onType = true ∧ (onlyReaders = true → d.readsModel = true)

theorem mem_filter_forType {rules : Derivations} {onlyReaders : Bool} {t : ConceptType}
    {d : Derivation} :
    d ∈ (rules.forType t).filter (fun d => !onlyReaders || d.readsModel) ↔
      Uses rules onlyReaders t d := by
  rw [List.mem_filter, Derivations.mem_forType, Uses]
  cases onlyReaders <;> simp [and_assoc]

theorem derive_cons_eq_ok_iff {model : Model} {e : Entry} {d : Derivation} {ds : List Derivation}
    {seeds : List Seed} :
    derive model e (d :: ds) = .ok seeds ↔
      ∃ nodes rest, d.derive e.node model = .ok nodes ∧ derive model e ds = .ok rest ∧
        seeds = nodes.map (⟨·, .derived e.key⟩) ++ rest := by
  have hm (nodes : List Node) : (d.derive e.node model).mapError (blame e.key) = .ok nodes ↔
      d.derive e.node model = .ok nodes := by
    cases d.derive e.node model <;> simp [Except.mapError]
  simp only [derive, bind_eq_ok, hm, pure_eq_ok]
  constructor
  · rintro ⟨nodes, hn, rest, hr, rfl⟩
    exact ⟨nodes, rest, hn, hr, rfl⟩
  · rintro ⟨nodes, rest, hn, hr, rfl⟩
    exact ⟨nodes, hn, rest, hr, rfl⟩

theorem mem_of_derive {model : Model} {e : Entry} {ds : List Derivation} {seeds : List Seed}
    (h : derive model e ds = .ok seeds) :
    ∀ d ∈ ds, ∃ nodes, d.derive e.node model = .ok nodes ∧
      ∀ n ∈ nodes, (⟨n, .derived e.key⟩ : Seed) ∈ seeds := by
  induction ds generalizing seeds with
  | nil => simp
  | cons d ds ih =>
    obtain ⟨nodes, rest, hn, hr, rfl⟩ := derive_cons_eq_ok_iff.mp h
    intro d' hd'
    rcases List.mem_cons.mp hd' with rfl | hd'
    · exact ⟨nodes, hn, fun n hm => List.mem_append_left _ (List.mem_map_of_mem hm)⟩
    · obtain ⟨nodes', hn', hm'⟩ := ih hr d' hd'
      exact ⟨nodes', hn', fun n hm => List.mem_append_right _ (hm' n hm)⟩

theorem exists_of_mem_derive {model : Model} {e : Entry} {ds : List Derivation}
    {seeds : List Seed} (h : derive model e ds = .ok seeds) :
    ∀ s ∈ seeds, s.origin = .derived e.key ∧
      ∃ d ∈ ds, ∃ nodes, d.derive e.node model = .ok nodes ∧ s.node ∈ nodes := by
  induction ds generalizing seeds with
  | nil =>
    obtain rfl := Except.ok.inj h
    simp
  | cons d ds ih =>
    obtain ⟨nodes, rest, hn, hr, rfl⟩ := derive_cons_eq_ok_iff.mp h
    intro s hs
    rcases List.mem_append.mp hs with hs | hs
    · obtain ⟨n, hm, rfl⟩ := List.mem_map.mp hs
      exact ⟨rfl, d, List.mem_cons_self, nodes, hn, hm⟩
    · obtain ⟨ho, d', hd', hd⟩ := ih hr s hs
      exact ⟨ho, d', List.mem_cons_of_mem d hd', hd⟩

theorem exists_derive {model : Model} {e : Entry} {ds : List Derivation}
    (h : ∀ d ∈ ds, ∃ nodes, d.derive e.node model = .ok nodes) :
    ∃ seeds, derive model e ds = .ok seeds := by
  induction ds with
  | nil => exact ⟨[], rfl⟩
  | cons d ds ih =>
    obtain ⟨nodes, hn⟩ := h d List.mem_cons_self
    obtain ⟨rest, hr⟩ := ih fun d' hd' => h d' (List.mem_cons_of_mem d hd')
    exact ⟨_, derive_cons_eq_ok_iff.mpr ⟨nodes, rest, hn, hr, rfl⟩⟩

theorem deriveAll_cons_eq_ok_iff {rules : Derivations} {onlyReaders : Bool} {model : Model}
    {i : Nat} {is : List Nat} {seeds : List Seed} :
    deriveAll rules onlyReaders model (i :: is) = .ok seeds ↔
      ∃ first rest, deriveAt rules onlyReaders model i = .ok first ∧
        deriveAll rules onlyReaders model is = .ok rest ∧ seeds = first ++ rest := by
  simp only [deriveAll, bind_eq_ok, pure_eq_ok]
  constructor
  · rintro ⟨first, hf, rest, hr, rfl⟩
    exact ⟨first, rest, hf, hr, rfl⟩
  · rintro ⟨first, rest, hf, hr, rfl⟩
    exact ⟨first, hf, rest, hr, rfl⟩

theorem mem_of_deriveAll {rules : Derivations} {onlyReaders : Bool} {model : Model} {is : List Nat}
    {seeds : List Seed} (h : deriveAll rules onlyReaders model is = .ok seeds) {i : Nat}
    (hi : i ∈ is) {e : Entry} (he : model.entries[i]? = some e) {d : Derivation}
    (hd : Uses rules onlyReaders e.node.type d) :
    ∃ nodes, d.derive e.node model = .ok nodes ∧
      ∀ n ∈ nodes, (⟨n, .derived e.key⟩ : Seed) ∈ seeds := by
  induction is generalizing seeds with
  | nil => simp at hi
  | cons j is ih =>
    obtain ⟨first, rest, hf, hr, rfl⟩ := deriveAll_cons_eq_ok_iff.mp h
    rcases List.mem_cons.mp hi with rfl | hi
    · rw [deriveAt, he] at hf
      obtain ⟨nodes, hn, hm⟩ := mem_of_derive hf d (mem_filter_forType.mpr hd)
      exact ⟨nodes, hn, fun n hn => List.mem_append_left _ (hm n hn)⟩
    · obtain ⟨nodes, hn, hm⟩ := ih hr hi
      exact ⟨nodes, hn, fun n hn => List.mem_append_right _ (hm n hn)⟩

theorem exists_of_mem_deriveAll {rules : Derivations} {onlyReaders : Bool} {model : Model}
    {is : List Nat} {seeds : List Seed} (h : deriveAll rules onlyReaders model is = .ok seeds)
    {s : Seed} (hs : s ∈ seeds) :
    ∃ i ∈ is, ∃ e, model.entries[i]? = some e ∧ s.origin = .derived e.key ∧
      ∃ d, Uses rules onlyReaders e.node.type d ∧
        ∃ nodes, d.derive e.node model = .ok nodes ∧ s.node ∈ nodes := by
  induction is generalizing seeds with
  | nil =>
    obtain rfl := Except.ok.inj h
    simp at hs
  | cons j is ih =>
    obtain ⟨first, rest, hf, hr, rfl⟩ := deriveAll_cons_eq_ok_iff.mp h
    rcases List.mem_append.mp hs with hs | hs
    · cases he : model.entries[j]? with
      | none =>
        rw [deriveAt, he] at hf
        obtain rfl := Except.ok.inj hf
        simp at hs
      | some e =>
        rw [deriveAt, he] at hf
        obtain ⟨ho, d, hd, hn⟩ := exists_of_mem_derive hf s hs
        exact ⟨j, List.mem_cons_self, e, he, ho, d, mem_filter_forType.mp hd, hn⟩
    · obtain ⟨i, hi, hrest⟩ := ih hr hs
      exact ⟨i, List.mem_cons_of_mem j hi, hrest⟩

theorem exists_deriveAll {rules : Derivations} {onlyReaders : Bool} {model : Model}
    {is : List Nat}
    (h : ∀ i ∈ is, ∀ e, model.entries[i]? = some e → ∀ d, Uses rules onlyReaders e.node.type d →
      ∃ nodes, d.derive e.node model = .ok nodes) :
    ∃ seeds, deriveAll rules onlyReaders model is = .ok seeds := by
  induction is with
  | nil => exact ⟨[], rfl⟩
  | cons i is ih =>
    have hfirst : ∃ first, deriveAt rules onlyReaders model i = .ok first := by
      cases he : model.entries[i]? with
      | none => exact ⟨[], by rw [deriveAt, he]⟩
      | some e =>
        rw [deriveAt, he]
        exact exists_derive fun d hd =>
          h i List.mem_cons_self e he d (mem_filter_forType.mp hd)
    obtain ⟨first, hf⟩ := hfirst
    obtain ⟨rest, hr⟩ := ih fun j hj => h j (List.mem_cons_of_mem i hj)
    exact ⟨first ++ rest, deriveAll_cons_eq_ok_iff.mpr ⟨first, rest, hf, hr, rfl⟩⟩

theorem mem_resolvedIndexes {model : Model} {i : Nat} :
    i ∈ resolvedIndexes model ↔ model.resolvedAt i = true := by
  rw [resolvedIndexes, List.mem_filter, List.mem_range]
  exact ⟨fun h => h.2, fun h => ⟨Model.lt_size_of_resolvedAt h, h⟩⟩

theorem isEmpty_iff_toList {q : Queue Seed} : q.isEmpty = true ↔ q.toList = [] := by
  simp [Queue.isEmpty, Queue.toList]

theorem refill_eq_self {rules : Derivations} {x : Expansion}
    (h : x.queue.toList ≠ [] ∨ x.roundSize = some x.model.size) : refill rules x = .ok x := by
  have hc : (!x.queue.isEmpty || x.roundSize == some x.model.size) = true := by
    rcases h with h | h
    · have hne := isEmpty_iff_toList.not.mpr h
      simp [hne]
    · simp [h]
  rw [refill, if_pos hc]

theorem refill_eq_round {rules : Derivations} {x : Expansion} (hq : x.queue.toList = [])
    (hs : x.roundSize ≠ some x.model.size) :
    refill rules x = (do
      let seeds ← deriveAll rules true x.model (resolvedIndexes x.model)
      return { x with queue := x.queue.pushAll seeds, roundSize := some x.model.size }) := by
  have hc : ¬(!x.queue.isEmpty || x.roundSize == some x.model.size) = true := by
    simp [isEmpty_iff_toList.mpr hq, hs]
  rw [refill, if_neg hc]

theorem refill_of_deriveAll {rules : Derivations} {x : Expansion} {seeds : List Seed}
    (hq : x.queue.toList = []) (hs : x.roundSize ≠ some x.model.size)
    (hd : deriveAll rules true x.model (resolvedIndexes x.model) = .ok seeds) :
    refill rules x =
      .ok { x with queue := x.queue.pushAll seeds, roundSize := some x.model.size } := by
  rw [refill_eq_round hq hs, hd]
  rfl

theorem refill_eq_ok {rules : Derivations} {x y : Expansion} (h : refill rules x = .ok y) :
    (y = x ∧ (x.queue.toList ≠ [] ∨ x.roundSize = some x.model.size)) ∨
    (x.queue.toList = [] ∧ ∃ seeds,
      deriveAll rules true x.model (resolvedIndexes x.model) = .ok seeds ∧
      y.model = x.model ∧ y.queue.toList = seeds ∧ y.roundSize = some x.model.size) := by
  by_cases hc : x.queue.toList ≠ [] ∨ x.roundSize = some x.model.size
  · rw [refill_eq_self hc] at h
    exact .inl ⟨(Except.ok.inj h).symm, hc⟩
  · have hq : x.queue.toList = [] := by
      by_contra hq
      exact hc (.inl hq)
    rw [refill_eq_round hq fun hs => hc (.inr hs)] at h
    obtain ⟨seeds, hd, h⟩ := bind_eq_ok.mp h
    obtain rfl := pure_eq_ok.mp h
    exact .inr ⟨hq, seeds, hd, rfl, by simp [hq], rfl⟩

/-- A step drops a concept that is there, or the model grows and the rules see what it completes. -/
theorem step_eq_ok {rules : Derivations} {x y : Expansion} {seed : Seed}
    (h : step rules x seed = .ok y) :
    (y = x ∧ x.model.Holds seed.node) ∨
    ∃ resolved seeds, x.model.Grows seed.node seed.origin resolved y.model ∧
      deriveAll rules false y.model resolved = .ok seeds ∧
      y.queue.toList = x.queue.toList ++ seeds ∧ y.roundSize = x.roundSize := by
  obtain ⟨⟨insertion, model⟩, hi, h⟩ := bind_eq_ok.mp h
  obtain ⟨prior, hp, hs, rfl, rfl⟩ | ⟨resolved, rfl, g⟩ := Model.insert_eq_ok_iff.mp hi
  · obtain rfl := pure_eq_ok.mp h
    exact .inl ⟨rfl, prior, hp, hs⟩
  · obtain ⟨seeds, hd, h⟩ := bind_eq_ok.mp h
    obtain rfl := pure_eq_ok.mp h
    exact .inr ⟨resolved, seeds, g, hd, by simp, rfl⟩

theorem step_of_holds {rules : Derivations} {x : Expansion} {seed : Seed}
    (h : x.model.Holds seed.node) : step rules x seed = .ok x := by
  obtain ⟨prior, hp, hs⟩ := h
  rw [step, Model.insert_eq_ok_iff.mpr (.inl ⟨prior, hp, hs, rfl, rfl⟩)]
  rfl

theorem step_of_grows {rules : Derivations} {x : Expansion} {node : Node} {origin : Origin}
    {resolved : List Nat} {model : Model} {seeds : List Seed}
    (g : x.model.Grows node origin resolved model)
    (hd : deriveAll rules false model resolved = .ok seeds) :
    ∃ y, step rules x ⟨node, origin⟩ = .ok y ∧ y.model = model ∧
      y.queue.toList = x.queue.toList ++ seeds ∧ y.roundSize = x.roundSize := by
  refine ⟨⟨model, x.queue.pushAll seeds, x.roundSize, note x.recent node.key origin⟩,
    ?_, rfl, by simp, rfl⟩
  rw [step, Model.insert_eq_ok_iff.mpr (.inr ⟨resolved, rfl, g⟩), ok_bind]
  simp only [hd, ok_bind]
  rfl

theorem roundSize_of_refill {rules : Derivations} {x y : Expansion} (h : refill rules x = .ok y)
    (hq : y.queue.toList = []) : y.roundSize = some y.model.size := by
  obtain ⟨rfl, hne | hs⟩ | ⟨_, _, _, hm, _, hs⟩ := refill_eq_ok h
  · exact absurd hq hne
  · exact hs
  · rw [hs, hm]

theorem run_of_refill {rules : Derivations} {limit budget : Nat} {x y : Expansion}
    (h : refill rules x = .ok y) :
    run rules limit budget x =
      match y.queue.pop? with
      | none => .ok y.model
      | some (seed, queue) =>
        match budget with
        | 0 => .error (diverged limit y)
        | budget + 1 => step rules { y with queue } seed >>= run rules limit budget := by
  rw [run, h, ok_bind]
  cases y.queue.pop? with
  | none => rfl
  | some p => cases budget <;> rfl

/-- How a run ends in a model: at once, or after a step. -/
theorem run_eq_ok {rules : Derivations} {limit budget : Nat} {x : Expansion} {m : Model}
    (h : run rules limit budget x = .ok m) :
    ∃ y, refill rules x = .ok y ∧
      ((y.queue.toList = [] ∧ y.model = m) ∨
        ∃ seed queue z rest, budget = rest + 1 ∧ y.queue.toList = seed :: queue.toList ∧
          step rules { y with queue } seed = .ok z ∧ run rules limit rest z = .ok m) := by
  obtain ⟨y, hy, _⟩ := bind_eq_ok.mp (by rwa [run] at h)
  refine ⟨y, hy, ?_⟩
  rw [run_of_refill hy] at h
  cases hp : y.queue.pop? with
  | none =>
    simp only [hp] at h
    exact .inl ⟨Queue.toList_of_pop?_eq_none hp, Except.ok.inj h⟩
  | some p =>
    obtain ⟨seed, queue⟩ := p
    simp only [hp] at h
    cases budget with
    | zero => simp at h
    | succ rest =>
      obtain ⟨z, hz, h⟩ := bind_eq_ok.mp h
      exact .inr ⟨seed, queue, z, rest, rfl, Queue.toList_of_pop?_eq_some hp, hz, h⟩

/-- What a run starts from and every step keeps holds in the end, when the queue is empty and the
model has not grown since the last round of model readers. -/
theorem run_invariant {rules : Derivations} {P : Expansion → Prop}
    (hrefill : ∀ {x y}, P x → refill rules x = .ok y → P y)
    (hstep : ∀ {x y seed queue}, P x → x.queue.toList = seed :: queue.toList →
      step rules { x with queue } seed = .ok y → P y)
    {limit budget : Nat} {x : Expansion} {m : Model} (hx : P x)
    (h : run rules limit budget x = .ok m) :
    ∃ y, P y ∧ y.queue.toList = [] ∧ y.roundSize = some y.model.size ∧ y.model = m := by
  -- By induction on the budget, which a step lowers and a refill does not.
  induction budget using Nat.strongRecOn generalizing x with
  | ind budget ih =>
    obtain ⟨y, hy, ⟨hq, hm⟩ | ⟨seed, queue, z, rest, rfl, hq, hz, hrun⟩⟩ := run_eq_ok h
    · exact ⟨y, hrefill hx hy, hq, roundSize_of_refill hy hq, hm⟩
    · exact ih rest (Nat.lt_succ_self rest) (hstep (hrefill hx hy) hq hz) hrun

theorem run_progress {rules : Derivations} {P : Expansion → Prop}
    (hrefill : ∀ {x}, P x → ∃ y, refill rules x = .ok y ∧ P y)
    (hstep : ∀ {x seed queue}, P x → x.queue.toList = seed :: queue.toList →
      ∃ y, step rules { x with queue } seed = .ok y ∧ P y)
    {limit budget : Nat} {x : Expansion} (hx : P x) :
    (∃ y, P y ∧ run rules limit budget x = .ok y.model) ∨
      ∃ d, run rules limit budget x = .error d ∧ d.code = .expansionDiverged := by
  induction budget using Nat.strongRecOn generalizing x with
  | ind budget ih =>
    obtain ⟨y, hy, hpy⟩ := hrefill hx
    rw [run_of_refill hy]
    cases hp : y.queue.pop? with
    | none => exact .inl ⟨y, hpy, rfl⟩
    | some p =>
      obtain ⟨seed, queue⟩ := p
      cases budget with
      | zero => exact .inr ⟨_, rfl, rfl⟩
      | succ rest =>
        obtain ⟨z, hz, hpz⟩ := hstep hpy (Queue.toList_of_pop?_eq_some hp)
        simp only [hz, ok_bind]
        exact ih rest (Nat.lt_succ_self rest) hpz

/-- A run that takes a number of steps to end in a model, and is cut off by a smaller budget. -/
def Takes (rules : Derivations) (x : Expansion) (n : Nat) (m : Model) : Prop :=
  ∀ limit budget, if n ≤ budget then run rules limit budget x = .ok m
    else ∃ d, run rules limit budget x = .error d ∧ d.code = .expansionDiverged

theorem Takes.done {rules : Derivations} {x y : Expansion} (h : refill rules x = .ok y)
    (hq : y.queue.toList = []) : Takes rules x 0 y.model := by
  intro limit budget
  rw [if_pos (Nat.zero_le _), run_of_refill h, Queue.pop?_eq_none hq]

theorem Takes.step {rules : Derivations} {x y z : Expansion} {seed : Seed} {queue : Queue Seed}
    {n : Nat} {m : Model} (h : refill rules x = .ok y) (hp : y.queue.pop? = some (seed, queue))
    (hs : step rules { y with queue } seed = .ok z) (hz : Takes rules z n m) :
    Takes rules x (n + 1) m := by
  intro limit budget
  rw [run_of_refill h, hp]
  cases budget with
  | zero =>
    rw [if_neg (Nat.not_succ_le_zero n)]
    exact ⟨_, rfl, rfl⟩
  | succ budget =>
    have hz := hz limit budget
    simp only [hs, ok_bind]
    by_cases hn : n ≤ budget
    · rw [if_pos hn] at hz
      rw [if_pos (Nat.succ_le_succ hn), hz]
    · rw [if_neg hn] at hz
      rwa [if_neg fun hle => hn (Nat.le_of_succ_le_succ hle)]

end Expansion

theorem Derivations.check_eq_ok_iff {rules : Derivations} {r : Registry} :
    rules.check r = .ok () ↔ ∀ d ∈ rules, (r.find? d.onType).isSome = true := by
  have hunknown : (rules.map Derivation.onType).filter (fun name => (r.find? name).isNone) = [] ↔
      ∀ d ∈ rules, (r.find? d.onType).isSome = true := by
    simp [List.filter_eq_nil_iff, Option.isSome_iff_ne_none]
  rw [← hunknown]
  simp only [check]
  generalize (rules.map Derivation.onType).filter (fun name => (r.find? name).isNone) = unknown
  have hperm := List.mergeSort_perm unknown fun a b => decide (a ≤ b)
  split
  · next hsorted =>
    rw [hsorted] at hperm
    simp [hperm.nil_eq.symm]
  · next name names hsorted =>
    rw [hsorted] at hperm
    simp [List.ne_nil_of_mem (hperm.mem_iff.mp List.mem_cons_self)]

theorem expand_eq_ok_iff {r : Registry} {rules : Derivations} {options : Options}
    {seeds : List Seed} {m : Model} :
    expand r rules options seeds = .ok m ↔
      rules.check r = .ok () ∧
      Expansion.run rules options.maxExpansionSteps options.maxExpansionSteps
        { model := { registry := r }, queue := .ofList seeds } = .ok m ∧
      m.checkResolved = .ok () := by
  simp only [expand, bind_eq_ok, pure_eq_ok]
  constructor
  · rintro ⟨_, hc, m, hr, _, hm, rfl⟩
    exact ⟨hc, hr, hm⟩
  · rintro ⟨hc, hr, hm⟩
    exact ⟨(), hc, m, hr, (), hm, rfl⟩

theorem expand_of_run_error {r : Registry} {rules : Derivations} {options : Options}
    {seeds : List Seed} {d : Diagnostic} (hcheck : rules.check r = .ok ())
    (h : Expansion.run rules options.maxExpansionSteps options.maxExpansionSteps
      { model := { registry := r }, queue := .ofList seeds } = .error d) :
    expand r rules options seeds = .error d := by
  rw [expand, hcheck, ok_bind]
  simp only [h]
  rfl

end ConceptScript
