import ConceptScript.Proofs.Expansion.Listing

namespace ConceptScript

/-- Puts rules in the place of others of the same type and kind. -/
def Derivation.Replaces (f : Derivation → Derivation) : Prop :=
  ∀ d, (f d).onType = d.onType ∧ (f d).readsModel = d.readsModel

/-- Rules that derive the same from a concept, whatever insertions led to the model. -/
def Derivation.Agree (r : Registry) (d d' : Derivation) (n : Node) : Prop :=
  ∀ p : Model, p.Reachable r → d.derive n p = d'.derive n p

namespace Expansion

variable {r : Registry} {f : Derivation → Derivation} {rules : Derivations}

theorem forType_map (hf : Derivation.Replaces f) (t : ConceptType) :
    Derivations.forType (rules.map f) t = (rules.forType t).map f := by
  simp [Derivations.forType, List.filter_map, List.map_flatMap, Function.comp_def, hf _]

theorem derive_map {model : Model} (hm : model.Reachable r) {e : Entry} {ds : List Derivation}
    (h : ∀ d ∈ ds, d.Agree r (f d) e.node) : derive model e (ds.map f) = derive model e ds := by
  induction ds with
  | nil => rfl
  | cons d ds ih =>
    rw [List.map_cons, derive, derive, h d List.mem_cons_self model hm,
      ih fun d' hd' => h d' (List.mem_cons_of_mem d hd')]

theorem deriveAll_map (hf : Derivation.Replaces f) {onlyReaders : Bool} {model : Model}
    (hm : model.Reachable r)
    (h : ∀ n ∈ model.concepts, ∀ d ∈ rules.forType n.type, d.Agree r (f d) n) (is : List Nat) :
    deriveAll (rules.map f) onlyReaders model is = deriveAll rules onlyReaders model is := by
  have hat (i : Nat) :
      deriveAt (rules.map f) onlyReaders model i = deriveAt rules onlyReaders model i := by
    unfold deriveAt
    cases he : model.entries[i]? with
    | none => rfl
    | some e =>
      simp only [forType_map hf, List.filter_map, Function.comp_def, hf _]
      refine derive_map hm fun d hd => h e.node ?_ d (List.mem_of_mem_filter hd)
      exact List.mem_of_getElem? (Model.concept_of_entry he)
  induction is with
  | nil => rfl
  | cons i is ih => rw [deriveAll, deriveAll, hat, ih]

theorem refill_map (hf : Derivation.Replaces f) {x : Expansion} (hx : x.model.Reachable r)
    (h : ∀ n ∈ x.model.concepts, ∀ d ∈ rules.forType n.type, d.Agree r (f d) n) :
    refill (rules.map f) x = refill rules x := by
  unfold refill
  rw [deriveAll_map hf hx h]

theorem concepts_subset_of_run {limit budget : Nat} {x : Expansion} {m : Model}
    (h : run rules limit budget x = .ok m) : ∀ n ∈ x.model.concepts, n ∈ m.concepts := by
  let P (y : Expansion) : Prop := ∀ n ∈ x.model.concepts, n ∈ y.model.concepts
  have hrefill {y z : Expansion} (hy : P y) (h : refill rules y = .ok z) : P z := by
    rcases refill_eq_ok h with ⟨rfl, _⟩ | ⟨_, _, _, hm, _⟩
    · exact hy
    · exact fun n hn => hm ▸ hy n hn
  have hstep {y z : Expansion} {seed : Seed} {queue : Queue Seed} (hy : P y)
      (_ : y.queue.toList = seed :: queue.toList)
      (h : step rules { y with queue } seed = .ok z) : P z := by
    rcases step_eq_ok h with ⟨rfl, _⟩ | ⟨_, _, g, _⟩
    · exact hy
    · intro n hn
      rw [g.concepts]
      exact List.mem_append_left _ (hy n hn)
  obtain ⟨y, hy, _, _, rfl⟩ := run_invariant hrefill hstep (fun _ hn => hn) h
  exact hy

theorem step_of_step_map (hf : Derivation.Replaces f) {x y : Expansion} {seed : Seed}
    (hx : x.model.Reachable r) (hstep : step (rules.map f) x seed = .ok y)
    (h : ∀ n ∈ y.model.concepts, ∀ d ∈ rules.forType n.type, d.Agree r (f d) n) :
    step rules x seed = .ok y := by
  obtain ⟨⟨insertion, model⟩, hinsert, hstep⟩ := bind_eq_ok.mp hstep
  rw [step, hinsert, ok_bind]
  cases insertion with
  | duplicate => exact hstep
  | added index resolved =>
    obtain ⟨seeds, hseeds, hstep⟩ := bind_eq_ok.mp hstep
    obtain rfl := pure_eq_ok.mp hstep
    rw [deriveAll_map hf (.insert hx hinsert) h] at hseeds
    simp only [hseeds, ok_bind]
    rfl

theorem run_of_run_map (hf : Derivation.Replaces f) {limit budget : Nat} {x : Expansion}
    {m : Model} (hx : x.model.Reachable r) (hrun : run (rules.map f) limit budget x = .ok m)
    (h : ∀ n ∈ m.concepts, ∀ d ∈ rules.forType n.type, d.Agree r (f d) n) :
    run rules limit budget x = .ok m := by
  -- What the rules see on the way is in the model that the run ends in.
  have hpart {k : Nat} {z : Expansion} (hz : run (rules.map f) limit k z = .ok m) :
      ∀ n ∈ z.model.concepts, ∀ d ∈ rules.forType n.type, d.Agree r (f d) n :=
    fun n hn => h n (concepts_subset_of_run hz n hn)
  induction budget using Nat.strongRecOn generalizing x with
  | ind budget ih =>
    obtain ⟨y, hy, _⟩ := run_eq_ok hrun
    have hagree := refill_map hf hx (hpart hrun)
    have hy' : y.model.Reachable r := by
      rcases refill_eq_ok hy with ⟨rfl, _⟩ | ⟨_, _, _, hm, _⟩
      · exact hx
      · exact hm ▸ hx
    rw [run_of_refill hy] at hrun
    rw [run_of_refill (hagree ▸ hy)]
    cases hp : y.queue.pop? with
    | none => simpa only [hp] using hrun
    | some p =>
      obtain ⟨seed, queue⟩ := p
      simp only [hp] at hrun
      cases budget with
      | zero => exact hrun
      | succ rest =>
        obtain ⟨z, hz, hrest⟩ := bind_eq_ok.mp hrun
        have hz' : z.model.Reachable r := by
          rcases step_eq_ok hz with ⟨rfl, _⟩ | ⟨_, _, g, _⟩
          · exact hy'
          · exact Model.Reachable.grow hy' g
        simp only [step_of_step_map hf (x := { y with queue }) hy' hz (hpart hrest), ok_bind]
        exact ih rest (Nat.lt_succ_self rest) hz' hrest

end Expansion

/-- The rule as it is where there is nothing in the model. -/
def Derivation.blind (r : Registry) (d : Derivation) : ListRule where
  onType := d.onType
  readsModel := d.readsModel
  derive n _ := (d.derive n { registry := r }).toOption.getD []

theorem exists_expand_of_agree {r : Registry} {rules : Derivations} {options : Options}
    {seeds : List Seed} {cs : List Node} {f : Derivation → ListRule}
    (hf : Derivation.Replaces fun d => (f d).derivation)
    (hcheck : ∀ d ∈ rules, (r.find? d.onType).isSome = true)
    (hrun : Listing.run (rules.map f) options.maxExpansionSteps
      ⟨[], seeds.map Seed.node, none⟩ = some cs)
    (hanswers : cs.all (Listing.answers cs) = true)
    (hagree : ∀ n ∈ cs, ∀ d ∈ rules.forType n.type, d.Agree r (f d).derivation n) :
    ∃ m, expand r rules options seeds = .ok m ∧ m.concepts = cs := by
  have hknown : ∀ g ∈ rules.map f, (r.find? g.onType).isSome = true := by
    intro g hg
    obtain ⟨d, hd, rfl⟩ := List.mem_map.mp hg
    have htype : (f d).onType = d.onType := (hf d).1
    rw [htype]
    exact hcheck d hd
  obtain ⟨m, hexpand, rfl⟩ := expand_listing_iff.mpr ⟨hknown, hrun, hanswers⟩
  obtain ⟨_, hm, hresolved⟩ := expand_eq_ok_iff.mp hexpand
  rw [List.map_map] at hm
  exact ⟨m, expand_eq_ok_iff.mpr ⟨Derivations.check_eq_ok_iff.mpr hcheck,
    Expansion.run_of_run_map hf .empty hm hagree, hresolved⟩, rfl⟩

end ConceptScript
