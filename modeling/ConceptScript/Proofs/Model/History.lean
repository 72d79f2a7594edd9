import ConceptScript.Expansion
import ConceptScript.Proofs.Model.Resolution

namespace ConceptScript

def Entry.seed (e : Entry) : Seed := ⟨e.node, e.origin⟩

namespace Model

def seeds (m : Model) : List Seed := m.entries.toList.map Entry.seed

def insertAll (m : Model) : List Seed → Except Diagnostic Model
  | [] => .ok m
  | s :: ss => do
    let (_, m) ← m.insert s.node s.origin
    m.insertAll ss

/-- The model as it was when it had some number of concepts. -/
def past (m : Model) (k : Nat) : Except Diagnostic Model :=
  insertAll { registry := m.registry } (m.seeds.take k)

theorem insertAll_append {m p : Model} {ss : List Seed} (h : m.insertAll ss = .ok p)
    (ts : List Seed) : m.insertAll (ss ++ ts) = p.insertAll ts := by
  induction ss generalizing m with
  | nil =>
    obtain rfl := Except.ok.inj h
    rfl
  | cons s ss ih =>
    obtain ⟨⟨insertion, q⟩, hi, hq⟩ := bind_eq_ok.mp h
    rw [List.cons_append, insertAll, hi, ok_bind]
    exact ih hq

@[simp] theorem length_seeds (m : Model) : m.seeds.length = m.size := by
  simp [seeds, size]

theorem map_node_seeds (m : Model) : m.seeds.map Seed.node = m.concepts := by
  simp [seeds, concepts, Entry.seed]

section Growth

variable {m m' : Model} {node : Node} {origin : Origin} {resolved : List Nat}

theorem Grows.seeds (g : m.Grows node origin resolved m') :
    m'.seeds = m.seeds ++ [⟨node, origin⟩] :=
  g.map_entries Entry.seed fun _ _ => rfl

theorem Grows.past_of_le (g : m.Grows node origin resolved m') {k : Nat} (hk : k ≤ m.size) :
    m'.past k = m.past k := by
  rw [past, past, g.registry, g.seeds, List.take_append_of_le_length (by simpa using hk)]

end Growth

theorem Reachable.insertAll_seeds {r : Registry} {m : Model} (h : m.Reachable r) :
    insertAll { registry := r } m.seeds = .ok m := by
  refine Reachable.induct (P := fun m => insertAll { registry := r } m.seeds = .ok m) rfl ?_ h
  intro m m' node origin resolved _ ih g
  have hi := insert_eq_ok_iff.mpr (.inr ⟨resolved, rfl, g⟩)
  rw [g.seeds, insertAll_append ih, insertAll, hi]
  rfl

theorem Reachable.past_of_ge {r : Registry} {m : Model} (h : m.Reachable r) {k : Nat}
    (hk : m.size ≤ k) : m.past k = .ok m := by
  rw [past, List.take_of_length_le (by simpa using hk), h.registry_eq]
  exact h.insertAll_seeds

theorem Reachable.exists_past {r : Registry} {m : Model} (h : m.Reachable r) (k : Nat) :
    ∃ p, m.past k = .ok p ∧ p.Reachable r ∧ p.seeds = m.seeds.take k := by
  refine Reachable.induct (P := fun m => ∃ p, m.past k = .ok p ∧ p.Reachable r ∧
    p.seeds = m.seeds.take k) ⟨_, by simp [past, seeds, insertAll], .empty, by simp [seeds]⟩ ?_ h
  intro m m' node origin resolved hm ih g
  have hm' := hm.grow g
  -- The shorter pasts are those of the old model, and the new model is its own last past.
  by_cases hk : k ≤ m.size
  · obtain ⟨p, hp, hr, hs⟩ := ih
    refine ⟨p, by rw [g.past_of_le hk, hp], hr, ?_⟩
    rw [hs, g.seeds, List.take_append_of_le_length (by simpa using hk)]
  · have hge : m'.size ≤ k := by
      rw [g.size]
      omega
    exact ⟨m', hm'.past_of_ge hge, hm', by rw [List.take_of_length_le (by simpa using hge)]⟩

theorem Reachable.reachable_past {r : Registry} {m p : Model} (h : m.Reachable r) {k : Nat}
    (hp : m.past k = .ok p) : p.Reachable r := by
  obtain ⟨q, hq, hr, _⟩ := h.exists_past k
  obtain rfl : p = q := Except.ok.inj (hp.symm.trans hq)
  exact hr

theorem Reachable.concepts_past {r : Registry} {m p : Model} (h : m.Reachable r) {k : Nat}
    (hp : m.past k = .ok p) : p.concepts = m.concepts.take k := by
  obtain ⟨q, hq, _, hs⟩ := h.exists_past k
  obtain rfl : p = q := Except.ok.inj (hp.symm.trans hq)
  rw [← map_node_seeds, hs, List.map_take, map_node_seeds]

theorem Reachable.past_concept {r : Registry} {m p : Model} (h : m.Reachable r) {i k : Nat}
    (hp : m.past k = .ok p) {n : Node} (hn : p.concepts[i]? = some n) :
    i < k ∧ m.concepts[i]? = some n := by
  rw [h.concepts_past hp, List.getElem?_take] at hn
  split at hn
  · next hlt => exact ⟨hlt, hn⟩
  · simp at hn

/-- The entry at an index was completed by the insertion at another one, which led to a model. -/
structure Completed (m : Model) (i k : Nat) (p : Model) : Prop where
  past : m.past (k + 1) = .ok p
  resolved : p.resolvedAt i = true
  before : ∀ q, m.past k = .ok q → q.resolvedAt i = false

theorem Reachable.concept_of_completed {r : Registry} {m p : Model} (h : m.Reachable r)
    {i k : Nat} (hc : m.Completed i k p) {n : Node} (hn : m.concepts[i]? = some n) :
    p.concepts[i]? = some n := by
  obtain ⟨n', hn', _⟩ := (resolvedAt_iff (h.reachable_past hc.past).resolving).mp hc.resolved
  rw [hn', ← (h.past_concept hc.past hn').2, hn]

theorem Reachable.exists_completed {r : Registry} {m : Model} (h : m.Reachable r) {i : Nat}
    (hi : m.resolvedAt i = true) : ∃ k p, m.Completed i k p := by
  have hpast : ∀ k p, m.past k = .ok p → p.resolvedAt i = true → ∃ k p, m.Completed i k p := by
    intro k
    induction k with
    | zero =>
      intro p hp hres
      obtain rfl := Except.ok.inj hp
      simp [resolvedAt] at hres
    | succ k ih =>
      intro p hp hres
      obtain ⟨q, hq, _⟩ := h.exists_past k
      by_cases hqi : q.resolvedAt i = true
      · exact ih q hq hqi
      · refine ⟨k, p, hp, hres, ?_⟩
        intro q' hq'
        obtain rfl : q = q' := Except.ok.inj (hq.symm.trans hq')
        simpa using hqi
  exact hpast m.size m (h.past_of_ge (Nat.le_refl _)) hi

theorem Grows.completed_cases {r : Registry} {m m' : Model} {node : Node} {origin : Origin}
    {resolved : List Nat} (hm : m.Reachable r) (g : m.Grows node origin resolved m') {i k : Nat}
    {p : Model} (h : m'.Completed i k p) : m.Completed i k p ∨ (p = m' ∧ i ∈ resolved) := by
  have hm' := hm.grow g
  -- Nothing is inserted after the new concept, so nothing is completed there.
  rcases Nat.lt_trichotomy k m.size with hk | rfl | hk
  · refine .inl ⟨?_, h.resolved, ?_⟩
    · rw [← g.past_of_le hk, h.past]
    · intro q hq
      exact h.before q (by rw [g.past_of_le (Nat.le_of_lt hk), hq])
  · have hp : m'.past (m.size + 1) = .ok m' := hm'.past_of_ge (Nat.le_of_eq g.size)
    obtain rfl : p = m' := Except.ok.inj (h.past.symm.trans hp)
    have hq : p.past m.size = .ok m := by
      rw [g.past_of_le (Nat.le_refl _), hm.past_of_ge (Nat.le_refl _)]
    exact .inr ⟨rfl, (g.mem_resolved_iff hm.indexed hm.resolving).mpr ⟨h.resolved, h.before m hq⟩⟩
  · have hp : m'.past (k + 1) = .ok m' := hm'.past_of_ge (by rw [g.size]; omega)
    have hq : m'.past k = .ok m' := hm'.past_of_ge (by rw [g.size]; omega)
    obtain rfl : p = m' := Except.ok.inj (h.past.symm.trans hp)
    have hres := h.resolved
    rw [h.before p hq] at hres
    exact absurd hres (by simp)

end Model

def Entry.anonymous (e : Entry) : Entry := { e with origin := .initial }

namespace Model

def anonymous (m : Model) : Model := { m with entries := m.entries.map Entry.anonymous }

@[simp] theorem anonymous_concepts (m : Model) : m.anonymous.concepts = m.concepts := by
  simp [anonymous, concepts, Entry.anonymous]

@[simp] theorem anonymous_size (m : Model) : m.anonymous.size = m.size := by
  simp [anonymous, size]

theorem anonymous_getElem? (m : Model) (i : Nat) :
    m.anonymous.entries[i]? = m.entries[i]?.map Entry.anonymous := by
  simp [anonymous]

theorem entry_anonymous (m : Model) (k : String) :
    m.anonymous.entry? k = (m.entry? k).map Entry.anonymous := by
  rw [Model.entry?, Model.entry?, Option.map_bind]
  simp only [anonymous, Array.getElem?_map]
  rfl

theorem anonymous_find? (m : Model) (k : String) : m.anonymous.find? k = m.find? k := by
  rw [find?, entry_anonymous, Option.map_map]
  rfl

@[simp] theorem anonymous_resolvedAt (m : Model) (i : Nat) :
    m.anonymous.resolvedAt i = m.resolvedAt i := by
  rw [resolvedAt, anonymous_getElem?, Option.map_map]
  rfl

theorem release_anonymous {node : Node} {ws : List Waiting} {entries entries' : Array Entry}
    {resolved : List Nat} (h : release node ws entries = .ok (entries', resolved)) :
    release node ws (entries.map Entry.anonymous) =
      .ok (entries'.map Entry.anonymous, resolved) := by
  induction ws generalizing entries resolved with
  | nil =>
    obtain ⟨rfl, rfl⟩ := Prod.mk.inj (Except.ok.inj h)
    rfl
  | cons w ws ih =>
    cases hw : entries[w.entry]? with
    | none =>
      rw [release, hw] at h
      rw [release, Array.getElem?_map, hw]
      exact ih h
    | some waiter =>
      obtain ⟨hc, rest, hr, rfl⟩ := (release_cons_eq_ok_iff hw).mp h
      have hwa : (entries.map Entry.anonymous)[w.entry]? = some waiter.anonymous := by
        rw [Array.getElem?_map, hw]
        rfl
      refine (release_cons_eq_ok_iff hwa).mpr ⟨hc, rest, ?_, rfl⟩
      rw [← ih hr, Array.map_setIfInBounds]
      rfl

theorem Grows.anonymous {m m' : Model} {node : Node} {origin : Origin} {resolved : List Nat}
    (g : m.Grows node origin resolved m') :
    m.anonymous.Grows node .initial resolved m'.anonymous := by
  have ha : m.anonymous.answer? node = m.answer? node := by
    funext k
    rw [answer?, answer?, anonymous_find?]
  have hu : m.anonymous.unanswered node = m.unanswered node := by
    rw [unanswered, unanswered, ha]
  refine ⟨by rw [entry_anonymous, g.free, Option.map_none], g.complete, by rw [ha]; exact g.fits,
    ?_, g.registry, ?_, ?_, ?_, ?_, ?_⟩
  · obtain ⟨completed, hr, rfl⟩ := g.released
    refine ⟨completed, ?_, by rw [hu, anonymous_size]⟩
    have ha := release_anonymous hr
    rw [Array.map_push] at ha
    rw [hu, anonymous_size]
    exact ha
  · rw [anonymous_size]; exact g.byKey
  · rw [anonymous_size]; exact g.byType
  · rw [anonymous_size]; exact g.byReference
  · rw [anonymous_size]; exact g.byParent
  · rw [hu, anonymous_size]; exact g.waiting

theorem Reachable.anonymous {r : Registry} {m : Model} (h : m.Reachable r) :
    m.anonymous.Reachable r := by
  have hempty : Model.anonymous { registry := r } = { registry := r } := by simp [Model.anonymous]
  refine Reachable.induct (P := fun m => m.anonymous.Reachable r)
    (by rw [hempty]; exact .empty) ?_ h
  intro m m' node origin resolved _ ih g
  exact ih.grow g.anonymous

end Model

end ConceptScript
