import Mathlib.Logic.Relation
import ConceptScript.Proofs.Expansion.Listing

namespace ConceptScript

namespace Expansion

/-- The concept is in the model or on its way into it. -/
def Covers (x : Expansion) (n : Node) : Prop :=
  x.model.Holds n ∨ ∃ s ∈ x.queue.toList, s.node = n

theorem Covers.take {x y : Expansion} {seed : Seed} {queue : Queue Seed}
    (hq : x.queue.toList = seed :: queue.toList)
    (hholds : ∀ n, x.model.Holds n → y.model.Holds n) (hseed : y.model.Holds seed.node)
    (hrest : ∀ s ∈ queue.toList, s ∈ y.queue.toList) {n : Node} (h : x.Covers n) :
    y.Covers n := by
  rcases h with hn | ⟨s, hs, rfl⟩
  · exact .inl (hholds n hn)
  · rw [hq] at hs
    rcases List.mem_cons.mp hs with rfl | hs
    · exact .inl hseed
    · exact .inr ⟨s, hrest s hs, rfl⟩

theorem Covers.holds {x : Expansion} (hq : x.queue.toList = []) {n : Node} (h : x.Covers n) :
    x.model.Holds n := by
  rcases h with hn | ⟨s, hs, _⟩
  · exact hn
  · simp [hq] at hs

/-- The rules used on a concept of a model succeed and give only concepts with a property. -/
def Yields (rules : Derivations) (onlyReaders : Bool) (p : Model) (i : Nat) (Q : Node → Prop) :
    Prop :=
  ∀ n, p.concepts[i]? = some n → ∀ d, Uses rules onlyReaders n.type d →
    ∃ nodes, d.derive n p = .ok nodes ∧ ∀ c ∈ nodes, Q c

section Yields

variable {rules : Derivations} {onlyReaders : Bool} {p : Model} {Q R : Node → Prop}

theorem Yields.of_deriveAll {is : List Nat} {derived : List Seed}
    (h : deriveAll rules onlyReaders p is = .ok derived) {i : Nat} (hi : i ∈ is) :
    Yields rules onlyReaders p i fun n => ∃ s ∈ derived, s.node = n := by
  intro n hn d hd
  obtain ⟨e, he, rfl⟩ := Model.exists_entry hn
  obtain ⟨nodes, hnodes, hmem⟩ := mem_of_deriveAll h hi he hd
  exact ⟨nodes, hnodes, fun c hc => ⟨_, hmem c hc, rfl⟩⟩

theorem Yields.mono {i : Nat} (h : Yields rules onlyReaders p i Q) (hqr : ∀ n, Q n → R n) :
    Yields rules onlyReaders p i R := by
  intro n hn d hd
  obtain ⟨nodes, hnodes, hq⟩ := h n hn d hd
  exact ⟨nodes, hnodes, fun c hc => hqr c (hq c hc)⟩

theorem Yields.exists_deriveAll {is : List Nat} (h : ∀ i ∈ is, Yields rules onlyReaders p i Q) :
    ∃ derived, deriveAll rules onlyReaders p is = .ok derived ∧ ∀ s ∈ derived, Q s.node := by
  have hex : ∃ derived, deriveAll rules onlyReaders p is = .ok derived := by
    apply Expansion.exists_deriveAll
    intro i hi e he d hd
    obtain ⟨nodes, hnodes, _⟩ := h i hi e.node (Model.concept_of_entry he) d hd
    exact ⟨nodes, hnodes⟩
  obtain ⟨derived, hderived⟩ := hex
  refine ⟨derived, hderived, ?_⟩
  intro s hs
  obtain ⟨i, hi, e, he, _, d, hd, nodes, hnodes, hmem⟩ := exists_of_mem_deriveAll hderived hs
  obtain ⟨nodes', hnodes', hq⟩ := h i hi e.node (Model.concept_of_entry he) d hd
  obtain rfl : nodes = nodes' := Except.ok.inj (hnodes.symm.trans hnodes')
  exact hq s.node hmem

end Yields

def Derives (rules : Derivations) (p : Model) (source n : Node) : Prop :=
  ∃ d ∈ rules, source.type.isA d.onType = true ∧
    ∃ nodes, d.derive source p = .ok nodes ∧ n ∈ nodes

/-- The seed was given, or a rule derived it when the model had at most so many concepts. -/
def Explained (rules : Derivations) (seeds : List Seed) (m : Model) (size : Nat) (s : Seed) :
    Prop :=
  s ∈ seeds ∨ ∃ j p, j ≤ size ∧ m.past j = .ok p ∧ ∃ k : Nat, ∃ source,
    p.concepts[k]? = some source ∧ p.resolvedAt k = true ∧ s.origin = .derived source.key ∧
    Derives rules p source s.node

section Explained

variable {rules : Derivations} {seeds : List Seed} {m : Model}

theorem Explained.of_deriveAll {r : Registry} (hm : m.Reachable r) {onlyReaders : Bool}
    {is : List Nat} (his : ∀ i ∈ is, m.resolvedAt i = true) {derived : List Seed}
    (h : deriveAll rules onlyReaders m is = .ok derived) :
    ∀ s ∈ derived, Explained rules seeds m m.size s := by
  intro s hs
  obtain ⟨i, hi, e, he, ho, d, hd, hn⟩ := exists_of_mem_deriveAll h hs
  have hkey := hm.indexed.key_eq_of_getElem? he
  exact .inr ⟨m.size, m, Nat.le_refl _, hm.past_of_ge (Nat.le_refl _), i, e.node,
    Model.concept_of_entry he, his i hi, by rw [ho, hkey], d, hd.1, hd.2.1, hn⟩

theorem Explained.mono {size size' : Nat} {s : Seed} (h : Explained rules seeds m size s)
    (hs : size ≤ size') : Explained rules seeds m size' s := by
  rcases h with h | ⟨j, p, hj, hp, hd⟩
  · exact .inl h
  · exact .inr ⟨j, p, Nat.le_trans hj hs, hp, hd⟩

variable {m' : Model} {node : Node} {origin : Origin} {resolved : List Nat}
  (g : m.Grows node origin resolved m')
include g

theorem Explained.grow {size : Nat} {s : Seed} (hs : size ≤ m.size)
    (h : Explained rules seeds m size s) : Explained rules seeds m' size s := by
  rcases h with h | ⟨j, p, hj, hp, hd⟩
  · exact .inl h
  · exact .inr ⟨j, p, hj, by rw [g.past_of_le (Nat.le_trans hj hs), hp], hd⟩

theorem Explained.entries_grow
    (hentries : ∀ i s, m.seeds[i]? = some s → Explained rules seeds m i s)
    (hnew : Explained rules seeds m m.size ⟨node, origin⟩) :
    ∀ i s, m'.seeds[i]? = some s → Explained rules seeds m' i s := by
  intro i s hs
  rw [g.seeds] at hs
  rcases Nat.lt_trichotomy i m.size with hlt | rfl | hgt
  · rw [List.getElem?_append_left (by simpa using hlt)] at hs
    exact (hentries i s hs).grow g (Nat.le_of_lt hlt)
  · rw [List.getElem?_append_right (by simp)] at hs
    obtain rfl : ⟨node, origin⟩ = s := by simpa using hs
    exact hnew.grow g (Nat.le_refl _)
  · rw [List.getElem?_eq_none (by simpa using Nat.succ_le_of_lt hgt)] at hs
    exact absurd hs (by simp)

end Explained

/-- What holds of every state of a run from some seeds. -/
structure Saturating (r : Registry) (rules : Derivations) (seeds : List Seed) (x : Expansion) :
    Prop where
  reachable : x.model.Reachable r
  given : ∀ s ∈ seeds, x.Covers s.node
  completed : ∀ i k p, x.model.Completed i k p → Yields rules false p i x.Covers
  round : ∀ size, x.roundSize = some size → size ≤ x.model.size ∧
    ∃ p, x.model.past size = .ok p ∧ ∀ i, p.resolvedAt i = true → Yields rules true p i x.Covers
  entries : ∀ i s, x.model.seeds[i]? = some s → Explained rules seeds x.model i s
  queue : ∀ s ∈ x.queue.toList, Explained rules seeds x.model x.model.size s

section Saturating

variable {r : Registry} {rules : Derivations} {seeds : List Seed} {x y : Expansion}

theorem Saturating.start (r : Registry) (rules : Derivations) (seeds : List Seed) :
    Saturating r rules seeds { model := { registry := r }, queue := .ofList seeds } where
  reachable := .empty
  given := by
    intro s hs
    exact .inr ⟨s, by simpa using hs, rfl⟩
  completed := by
    intro i k p h
    have hp : p = { registry := r } := by
      have := h.past
      simp only [Model.past, Model.seeds, List.map_nil, List.take_nil, Model.insertAll] at this
      exact (Except.ok.inj this).symm
    have hres := h.resolved
    simp [hp, Model.resolvedAt] at hres
  round := by simp
  entries := by simp [Model.seeds]
  queue := by
    intro s hs
    exact .inl (by simpa using hs)

theorem Saturating.refill (hx : Saturating r rules seeds x) (h : refill rules x = .ok y) :
    Saturating r rules seeds y := by
  obtain ⟨rfl, _⟩ | ⟨hq, derived, hd, hm, hqueue, hsize⟩ := refill_eq_ok h
  · exact hx
  · have hmono : ∀ n, x.Covers n → y.Covers n := by
      intro n hn
      exact .inl (hm ▸ hn.holds hq)
    refine ⟨hm ▸ hx.reachable, fun s hs => hmono _ (hx.given s hs), ?_, ?_, ?_, ?_⟩
    · intro i k p hc
      rw [hm] at hc
      exact (hx.completed i k p hc).mono hmono
    · -- A new round reads the model as it is now, and the queue has all it gives.
      intro size hs
      obtain rfl : x.model.size = size := Option.some.inj (hsize.symm.trans hs)
      rw [hm]
      refine ⟨Nat.le_refl _, x.model, hx.reachable.past_of_ge (Nat.le_refl _), ?_⟩
      intro i hi
      refine (Yields.of_deriveAll hd (mem_resolvedIndexes.mpr hi)).mono ?_
      intro n hn
      exact .inr (by rwa [hqueue])
    · rw [hm]
      exact hx.entries
    · rw [hm, hqueue]
      exact Explained.of_deriveAll hx.reachable (fun i => mem_resolvedIndexes.mp) hd

variable {seed : Seed} {queue : Queue Seed}

theorem Saturating.drop (hx : Saturating r rules seeds x)
    (hq : x.queue.toList = seed :: queue.toList) (hheld : x.model.Holds seed.node) :
    Saturating r rules seeds { x with queue } := by
  have hmono : ∀ n, x.Covers n → Covers { x with queue } n := fun n hn =>
    hn.take (y := { x with queue }) hq (fun _ hm => hm) hheld fun _ hs => hs
  refine ⟨hx.reachable, fun s hs => hmono _ (hx.given s hs), ?_, ?_, hx.entries, ?_⟩
  · intro i k p hc
    exact (hx.completed i k p hc).mono hmono
  · intro size hs
    obtain ⟨hle, p, hp, hy⟩ := hx.round size hs
    exact ⟨hle, p, hp, fun i hi => (hy i hi).mono hmono⟩
  · intro s hs
    exact hx.queue s (by rw [hq]; exact List.mem_cons_of_mem _ hs)

theorem Saturating.grow (hx : Saturating r rules seeds x)
    (hq : x.queue.toList = seed :: queue.toList) {resolved : List Nat} {derived : List Seed}
    (g : x.model.Grows seed.node seed.origin resolved y.model)
    (hd : deriveAll rules false y.model resolved = .ok derived)
    (hqueue : y.queue.toList = queue.toList ++ derived) (hsize : y.roundSize = x.roundSize) :
    Saturating r rules seeds y := by
  have hi := hx.reachable.indexed
  have hy : y.model.Reachable r := hx.reachable.grow g
  have hmono : ∀ n, x.Covers n → y.Covers n := fun n hn =>
    hn.take hq (fun _ hm => g.holds_of_holds hi hm) (g.holds hi) fun s hs => by
      rw [hqueue]
      exact List.mem_append_left _ hs
  have hseed := hx.queue seed (by rw [hq]; exact List.mem_cons_self)
  refine ⟨hy, fun s hs => hmono _ (hx.given s hs), ?_, ?_,
    Explained.entries_grow g hx.entries hseed, ?_⟩
  · -- The rules were used just now on what this insertion completes, and earlier on the rest.
    intro i k p hc
    rcases g.completed_cases hx.reachable hc with hc | ⟨rfl, hmem⟩
    · exact (hx.completed i k p hc).mono hmono
    · refine (Yields.of_deriveAll hd hmem).mono ?_
      rintro n ⟨s, hs, rfl⟩
      exact .inr ⟨s, by rw [hqueue]; exact List.mem_append_right _ hs, rfl⟩
  · -- The last round read a model that is a past of this one too.
    intro size hs
    obtain ⟨hle, p, hp, hyields⟩ := hx.round size (hsize.symm.trans hs)
    refine ⟨by rw [g.size]; exact Nat.le_succ_of_le hle, p, ?_, ?_⟩
    · rw [g.past_of_le hle, hp]
    · exact fun i hi => (hyields i hi).mono hmono
  · intro s hs
    rw [hqueue] at hs
    rcases List.mem_append.mp hs with hs | hs
    · have hs := hx.queue s (by rw [hq]; exact List.mem_cons_of_mem _ hs)
      exact (hs.grow g (Nat.le_refl _)).mono (g.size ▸ Nat.le_succ _)
    · have hres : ∀ i ∈ resolved, y.model.resolvedAt i = true := fun i hi' =>
        ((g.mem_resolved_iff hi hx.reachable.resolving).mp hi').1
      exact Explained.of_deriveAll hy hres hd s hs

theorem Saturating.step (hx : Saturating r rules seeds x)
    (hq : x.queue.toList = seed :: queue.toList)
    (h : step rules { x with queue } seed = .ok y) : Saturating r rules seeds y := by
  obtain ⟨rfl, hheld⟩ | ⟨resolved, derived, g, hd, hqueue, hsize⟩ := step_eq_ok h
  · exact hx.drop hq hheld
  · exact hx.grow hq g hd hqueue hsize

end Saturating

/-- What holds of the model that a run ends in. -/
structure Saturated (r : Registry) (rules : Derivations) (seeds : List Seed) (m : Model) :
    Prop where
  reachable : m.Reachable r
  given : ∀ s ∈ seeds, m.Holds s.node
  completed : ∀ i k p, m.Completed i k p → Yields rules false p i m.Holds
  round : ∀ i, m.resolvedAt i = true → Yields rules true m i m.Holds
  entries : ∀ i s, m.seeds[i]? = some s → Explained rules seeds m i s

section Saturated

variable {r : Registry} {rules : Derivations} {seeds : List Seed} {m : Model}

theorem saturated_of_run {limit budget : Nat}
    (h : run rules limit budget { model := { registry := r }, queue := .ofList seeds } = .ok m) :
    Saturated r rules seeds m := by
  obtain ⟨y, hy, hq, hsize, rfl⟩ := run_invariant (P := Saturating r rules seeds)
    (fun hx h => hx.refill h) (fun hx hq h => hx.step hq h) (.start r rules seeds) h
  -- With nothing left in the queue, all that is covered is held.
  have hheld : ∀ n, y.Covers n → y.model.Holds n := fun n hn => hn.holds hq
  refine ⟨hy.reachable, fun s hs => hheld _ (hy.given s hs),
    fun i k p hc => (hy.completed i k p hc).mono hheld, ?_, hy.entries⟩
  intro i hi
  obtain ⟨_, p, hp, hyields⟩ := hy.round y.model.size hsize
  obtain rfl : y.model = p :=
    Except.ok.inj ((hy.reachable.past_of_ge (Nat.le_refl _)).symm.trans hp)
  exact (hyields i hi).mono hheld

/-- The concept at the first index was derived from the one at the second by a rule, on the model
as it was at some point between the two. -/
def DerivedFrom (rules : Derivations) (m : Model) (i k : Nat) : Prop :=
  ∃ e source, m.entries[i]? = some e ∧ m.entries[k]? = some source ∧
    e.origin = .derived source.key ∧
    ∃ j p, k < j ∧ j ≤ i ∧ m.past j = .ok p ∧ Derives rules p source.node e.node

theorem Saturated.given_or_derived (h : Saturated r rules seeds m) {i : Nat} {e : Entry}
    (he : m.entries[i]? = some e) : e.seed ∈ seeds ∨ ∃ k, DerivedFrom rules m i k := by
  have hseed : m.seeds[i]? = some e.seed := by simp [Model.seeds, he]
  rcases h.entries i e.seed hseed with hs | ⟨j, p, hj, hp, k, n, hn, _, ho, hd⟩
  · exact .inl hs
  · obtain ⟨hk, hm⟩ := h.reachable.past_concept hp hn
    obtain ⟨source, hsource, rfl⟩ := Model.exists_entry hm
    have hkey := h.reachable.indexed.key_eq_of_getElem? hsource
    exact .inr ⟨k, e, source, he, hsource, by rw [hkey]; exact ho, j, p, hk, hj, hp, hd⟩

theorem DerivedFrom.lt {i k : Nat} (h : DerivedFrom rules m i k) : k < i := by
  obtain ⟨_, _, _, _, _, j, _, hk, hj, _⟩ := h
  exact Nat.lt_of_lt_of_le hk hj

theorem Saturated.exists_seed (h : Saturated r rules seeds m) {i : Nat} {e : Entry}
    (he : m.entries[i]? = some e) :
    ∃ k source, Relation.ReflTransGen (DerivedFrom rules m) i k ∧ m.entries[k]? = some source ∧
      source.seed ∈ seeds := by
  induction i using Nat.strongRecOn generalizing e with
  | ind i ih =>
    rcases h.given_or_derived he with hs | ⟨k, hk⟩
    · exact ⟨i, e, .refl, he, hs⟩
    · have ⟨_, source, _, hsource, _⟩ := hk
      obtain ⟨j, first, hchain, hfirst, hs⟩ := ih k hk.lt hsource
      exact ⟨j, first, .head hk hchain, hfirst, hs⟩

end Saturated

end Expansion

open Expansion in
/-- An expansion loses nothing and invents nothing. Its model has the seeds and all that the rules
derive from its concepts: a rule that reads the model when it reads this one, and any rule when it
reads the model in which the concept was completed. What is not a seed was derived from a concept
that came before it. -/
theorem expand_saturates {r : Registry} {rules : Derivations} {options : Options}
    {seeds : List Seed} {m : Model} (h : expand r rules options seeds = .ok m) :
    (∀ s ∈ seeds, m.Holds s.node) ∧
    (∀ (i : Nat) e, m.entries[i]? = some e → ∀ d ∈ rules, e.node.type.isA d.onType = true →
      (d.readsModel = true → ∃ nodes, d.derive e.node m = .ok nodes ∧ ∀ n ∈ nodes, m.Holds n) ∧
      (∃ k p, m.Completed i k p) ∧
      ∀ k p, m.Completed i k p → ∃ nodes, d.derive e.node p = .ok nodes ∧ ∀ n ∈ nodes, m.Holds n) ∧
    ∀ (i : Nat) e, m.entries[i]? = some e →
      (e.seed ∈ seeds ∨ ∃ k, DerivedFrom rules m i k) ∧
      ∃ k source, Relation.ReflTransGen (DerivedFrom rules m) i k ∧ m.entries[k]? = some source ∧
        source.seed ∈ seeds := by
  obtain ⟨_, hrun, hres⟩ := expand_eq_ok_iff.mp h
  have hsat := saturated_of_run hrun
  refine ⟨hsat.given, ?_, fun i e he => ⟨hsat.given_or_derived he, hsat.exists_seed he⟩⟩
  intro i e he d hd ha
  have hn := Model.concept_of_entry he
  have hi : m.resolvedAt i = true := (Model.resolvedAt_iff hsat.reachable.resolving).mpr
    ⟨e.node, hn, (Model.checkResolved_eq_ok_iff hsat.reachable.resolving).mp hres e.node
      (List.mem_of_getElem? hn)⟩
  refine ⟨fun hreads => hsat.round i hi e.node hn d ⟨hd, ha, fun _ => hreads⟩,
    hsat.reachable.exists_completed hi, ?_⟩
  intro k p hc
  exact hsat.completed i k p hc e.node (hsat.reachable.concept_of_completed hc hn) d
    ⟨hd, ha, by simp⟩

open Expansion in
theorem expand_saturates_small :
    ∃ m, expand Small.registry (Small.rules.map ListRule.derivation) {} Small.seeds = .ok m ∧
      (∀ s ∈ Small.seeds, m.Holds s.node) ∧
      (∃ nodes, Small.logged.derivation.derive (Small.module "Common") m = .ok nodes ∧
        ∀ n ∈ nodes, m.Holds n) ∧
      (∃ k p, m.Completed 0 k p) ∧
      ∃ k, DerivedFrom (Small.rules.map ListRule.derivation) m 3 k := by
  obtain ⟨m, hm, hcs⟩ := Small.exists_expanded
  obtain ⟨hgiven, hclosed, horigin⟩ := expand_saturates hm
  obtain ⟨person, hperson, hpersonNode⟩ :=
    Model.exists_entry (m := m) (i := 0) (by rw [hcs]; rfl)
  obtain ⟨common, hcommon, hcommonNode⟩ :=
    Model.exists_entry (m := m) (i := 1) (by rw [hcs]; rfl)
  obtain ⟨audit, haudit, hauditNode⟩ :=
    Model.exists_entry (m := m) (i := 3) (by rw [hcs]; rfl)
  refine ⟨m, hm, hgiven, ?_, ?_, ?_⟩
  · rw [← hcommonNode]
    exact (hclosed 1 common hcommon Small.logged.derivation (by simp [Small.rules])
      (by rw [hcommonNode]; decide)).1 rfl
  · exact (hclosed 0 person hperson Small.audited.derivation (by simp [Small.rules])
      (by rw [hpersonNode]; decide)).2.1
  · refine (horigin 3 audit haudit).1.resolve_left fun hseed => ?_
    have hkey : (Small.module "Audit").key ∈ Small.seeds.map fun s => s.node.key := by
      rw [← hauditNode]
      exact List.mem_map_of_mem hseed
    exact absurd hkey (by decide)

end ConceptScript
