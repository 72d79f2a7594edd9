import ConceptScript.Expansion
import ConceptScript.Proofs.Model.Listing

namespace ConceptScript

def Insertion.completed : Insertion → List Nat
  | added _ resolved => resolved
  | duplicate => []

namespace Model

/-- Inserts one concept after the other, and gives what came of each. -/
def insertEach (m : Model) : List Seed → Except Diagnostic (List Insertion × Model)
  | [] => .ok ([], m)
  | s :: ss => do
    let (insertion, m) ← m.insert s.node s.origin
    let (insertions, m) ← m.insertEach ss
    return (insertion :: insertions, m)

theorem insertEach_cons_eq_ok_iff {m m' : Model} {s : Seed} {ss : List Seed}
    {insertions : List Insertion} :
    m.insertEach (s :: ss) = .ok (insertions, m') ↔
      ∃ insertion p rest, m.insert s.node s.origin = .ok (insertion, p) ∧
        p.insertEach ss = .ok (rest, m') ∧ insertions = insertion :: rest := by
  rw [insertEach]
  simp only [bind_eq_ok, Prod.exists, pure_eq_ok, Prod.mk.injEq]
  constructor
  · rintro ⟨insertion, p, hi, rest, q, hr, rfl, rfl⟩
    exact ⟨insertion, p, rest, hi, hr, rfl⟩
  · rintro ⟨insertion, p, rest, hi, hr, rfl⟩
    exact ⟨insertion, p, hi, rest, m', hr, rfl, rfl⟩

theorem Reachable.of_insertEach {r : Registry} {m m' : Model} {ss : List Seed}
    {insertions : List Insertion} (hm : m.Reachable r)
    (h : m.insertEach ss = .ok (insertions, m')) : m'.Reachable r := by
  induction ss generalizing m insertions with
  | nil =>
    obtain ⟨_, rfl⟩ := Prod.mk.inj (Except.ok.inj h)
    exact hm
  | cons s ss ih =>
    obtain ⟨insertion, p, rest, hi, hr, _⟩ := insertEach_cons_eq_ok_iff.mp h
    exact ih (.insert hm hi) hr

section Growth

variable {m m' : Model} {node : Node} {origin : Origin} {resolved : List Nat}

theorem Grows.resolvedAt_of_resolvedAt (h : m.Indexed) (hr : m.Resolving)
    (g : m.Grows node origin resolved m') {i : Nat} (hi : m.resolvedAt i = true) :
    m'.resolvedAt i = true := by
  obtain ⟨n, hn, hlinks⟩ := (resolvedAt_iff hr).mp hi
  refine (resolvedAt_iff (hr.grow h g)).mpr ⟨n, ?_, ?_⟩
  · rw [g.concepts, List.getElem?_append_left (List.getElem?_eq_some_iff.mp hn).1, hn]
  · intro l hl
    rw [g.contains, hlinks l hl, Bool.or_true]

theorem Grows.nodup_resolved (h : m.Indexed) (hr : m.Resolving)
    (g : m.Grows node origin resolved m') : resolved.Nodup := by
  rw [g.resolved_eq h hr, List.nodup_append]
  refine ⟨by split <;> simp, List.nodup_range.filter _, ?_⟩
  rintro i hi j hj rfl
  have hlt : i < m.size := List.mem_range.mp (List.mem_filter.mp hj).1
  split at hi
  · exact absurd (List.mem_singleton.mp hi) (Nat.ne_of_lt hlt)
  · simp at hi

/-- An insertion reports once what it resolves, and opens nothing that was resolved. -/
theorem Grows.count_resolved (h : m.Indexed) (hr : m.Resolving)
    (g : m.Grows node origin resolved m') (i : Nat) :
    (m.resolvedAt i).toNat + resolved.count i = (m'.resolvedAt i).toNat := by
  have hmem := g.mem_resolved_iff h hr (i := i)
  by_cases hi : m.resolvedAt i = true
  · have hnot : i ∉ resolved := by simp [hmem, hi]
    rw [List.count_eq_zero.mpr hnot, hi, g.resolvedAt_of_resolvedAt h hr hi, Nat.add_zero]
  · rw [(g.nodup_resolved h hr).count]
    cases hi' : m'.resolvedAt i <;> simp_all

end Growth

/-- Over a run, the reports of an entry make up the difference between its being resolved at the
end and at the start. -/
theorem Reachable.count_completed {r : Registry} {m m' : Model} {ss : List Seed}
    {insertions : List Insertion} (hm : m.Reachable r)
    (h : m.insertEach ss = .ok (insertions, m')) (i : Nat) :
    (m.resolvedAt i).toNat + (insertions.flatMap Insertion.completed).count i =
      (m'.resolvedAt i).toNat := by
  induction ss generalizing m insertions with
  | nil =>
    obtain ⟨rfl, rfl⟩ := Prod.mk.inj (Except.ok.inj h)
    simp
  | cons s ss ih =>
    obtain ⟨insertion, p, rest, hi, hr, rfl⟩ := insertEach_cons_eq_ok_iff.mp h
    have hrest := ih (.insert hm hi) hr
    rw [List.flatMap_cons, List.count_append]
    obtain ⟨_, _, _, rfl, rfl⟩ | ⟨resolved, rfl, g⟩ := insert_eq_ok_iff.mp hi
    · simpa [Insertion.completed] using hrest
    · have hstep := g.count_resolved hm.indexed hm.resolving i
      simp only [Insertion.completed]
      omega

theorem getElem?_park_ne_empty {waiting : Std.HashMap String (Array Waiting)} {entry : Nat}
    {missing : List Link} (h : ∀ (k : String) (ws : Array Waiting), waiting[k]? = some ws → ws ≠ #[])
    {k : String} {ws : Array Waiting} (hk : (park waiting entry missing)[k]? = some ws) :
    ws ≠ #[] := by
  induction missing generalizing waiting with
  | nil => exact h k ws hk
  | cons l ls ih =>
    refine ih ?_ hk
    intro k' ws' hk'
    rw [Std.HashMap.getElem?_alter] at hk'
    split at hk'
    · obtain rfl := Option.some.inj hk'
      simp
    · exact h k' ws' hk'

theorem Reachable.waiting_ne_empty {r : Registry} {m : Model} (h : m.Reachable r) :
    ∀ (k : String) (ws : Array Waiting), m.waiting[k]? = some ws → ws ≠ #[] := by
  refine Reachable.induct (P := fun m => ∀ (k : String) (ws : Array Waiting),
    m.waiting[k]? = some ws → ws ≠ #[]) (by simp) ?_ h
  intro m m' node origin resolved _ ih g k ws hk
  rw [g.waiting, Std.HashMap.getElem?_erase] at hk
  split at hk
  · simp at hk
  · exact getElem?_park_ne_empty ih hk

theorem Reachable.mem_waiting_iff {r : Registry} {m : Model} (h : m.Reachable r) {k : String} :
    k ∈ m.waiting ↔ m.contains k = false ∧ linksTo m.concepts k ≠ [] := by
  have hw := h.resolving.waiting k
  rw [Std.HashMap.getD_eq_getD_getElem?] at hw
  rw [Std.HashMap.mem_iff_isSome_getElem?]
  cases hk : m.waiting[k]? with
  | none =>
    rw [hk] at hw
    cases hc : m.contains k <;> simp_all
  | some ws =>
    have hne : ws.toList ≠ [] := fun hn => h.waiting_ne_empty k ws hk (Array.toList_eq_nil_iff.mp hn)
    rw [hk, Option.getD_some] at hw
    rw [hw] at hne
    cases hc : m.contains k <;> simp_all

theorem Reachable.exists_waiter {r : Registry} {m : Model} (h : m.Reachable r) {node : Node}
    {origin : Origin} {missing : List Link} (hfree : m.contains node.key = false)
    (hopen : m.openLinks node origin (links node) = .ok missing) {before after : List Waiting}
    {w : Waiting} (hw : ((park m.waiting m.size missing).getD node.key #[]).toList =
      before ++ w :: after) {entries : Array Entry} {completed : List Nat}
    (hrel : release node before (m.entries.push ⟨node, origin, node.key, missing.length⟩) =
      .ok (entries, completed)) :
    ∃ waiter, entries[w.entry]? = some waiter ∧ 0 < waiter.unresolved := by
  obtain ⟨_, rfl⟩ := openLinks_eq_ok_iff.mp hopen
  have htaken := (taken h.indexed h.resolving hfree).symm.trans hw
  have hlt : w.entry < m.size := by
    rw [← length_concepts]
    exact lt_of_mem_linksTo (k := node.key) (by rw [htaken]; simp)
  obtain ⟨e, he⟩ : ∃ e, m.entries[w.entry]? = some e := ⟨_, Array.getElem?_eq_getElem hlt⟩
  have hle := h.resolving.waitsOf_le hfree he
  have hone : waitsOf (w :: after) w.entry = waitsOf after w.entry + 1 := by simp [waitsOf]
  rw [htaken, waitsOf_append, hone] at hle
  have hne : w.entry ≠ m.entries.size := Nat.ne_of_lt hlt
  refine ⟨_, by rw [release_getElem? hrel, Array.getElem?_push, if_neg hne, he]; rfl, ?_⟩
  dsimp only
  omega

theorem countP_links (m : Model) (n : Node) :
    ((links n).countP fun l => !m.contains l.key) =
      n.references.countP fun (_, target) => !m.contains target.key := by
  rw [links, List.countP_map]
  rfl

/-- After any run of insertions, the counter of an entry is the number of its references that find
nothing, the table has these references under their keys and no key of the model, an insertion
counts down only what is above zero, and the run has reported each resolved entry once and no
other. -/
theorem open_references_recorded {r : Registry} {seeds : List Seed} {insertions : List Insertion}
    {m : Model} (h : insertEach { registry := r } seeds = .ok (insertions, m)) :
    (∀ e ∈ m.entries.toList,
      e.unresolved = e.node.references.countP fun (_, target) => !m.contains target.key) ∧
    (∀ k, (m.waiting.getD k #[]).toList = if m.contains k then [] else linksTo m.concepts k) ∧
    (∀ k, k ∈ m.waiting ↔ m.contains k = false ∧ linksTo m.concepts k ≠ []) ∧
    (∀ (node : Node) (origin : Origin) (missing : List Link), m.contains node.key = false →
      m.openLinks node origin (links node) = .ok missing →
      ∀ (before after : List Waiting) (w : Waiting),
        ((park m.waiting m.size missing).getD node.key #[]).toList = before ++ w :: after →
        ∀ (entries : Array Entry) (completed : List Nat),
          release node before (m.entries.push ⟨node, origin, node.key, missing.length⟩) =
            .ok (entries, completed) →
          ∃ waiter, entries[w.entry]? = some waiter ∧ 0 < waiter.unresolved) ∧
    ∀ i, (insertions.flatMap Insertion.completed).count i = if m.resolvedAt i then 1 else 0 := by
  have hempty : Model.Reachable r { registry := r } := .empty
  have hm := hempty.of_insertEach h
  refine ⟨?_, hm.resolving.waiting, fun k => hm.mem_waiting_iff, ?_, ?_⟩
  · intro e he
    obtain ⟨i, hi⟩ := Array.getElem?_of_mem (Array.mem_toList_iff.mp he)
    rw [hm.resolving.unresolved i e hi, countP_links]
  · intro node origin missing hfree hopen before after w hw entries completed hrel
    exact hm.exists_waiter hfree hopen hw hrel
  · intro i
    have hcount := hempty.count_completed h i
    have hstart : Model.resolvedAt { registry := r } i = false := by simp [resolvedAt]
    rw [hstart, Bool.toNat_false, Nat.zero_add] at hcount
    rw [hcount]
    cases m.resolvedAt i <;> rfl

theorem Reachable.exists_insert {r : Registry} {m : Model} (h : m.Reachable r) {n : Node}
    (ha : Listing.admits m.concepts n = true) (origin : Origin) :
    ∃ m' : Model, m.insert n origin = .ok (.added m.size (Listing.completes m.concepts n), m') ∧
      m'.Reachable r ∧ m'.concepts = m.concepts ++ [n] := by
  obtain ⟨resolved, m', g⟩ := (h.grows_iff origin).mpr ha
  obtain rfl := h.completes_eq g
  exact ⟨m', insert_eq_ok_iff.mpr (.inr ⟨_, rfl, g⟩), h.grow g, g.concepts⟩

/-- A group lists one entity twice. The entity comes after it, and its module never. -/
theorem open_references_recorded_small :
    ∃ m : Model, insertEach { registry := Small.registry }
        [⟨Small.group "All" [Small.entity "Common" "Person", Small.entity "Common" "Person"], .initial⟩,
          ⟨Small.entity "Common" "Person", .initial⟩] = .ok ([.added 0 [], .added 1 [0]], m) ∧
      m.entries.toList.map Entry.unresolved = [0, 1] ∧
      (m.waiting.getD "Module Common" #[]).toList = [⟨1, "Module", .concept "Module"⟩] ∧
      m.resolvedAt 0 = true ∧ m.resolvedAt 1 = false := by
  have hempty : Model.Reachable Small.registry { registry := Small.registry } := .empty
  obtain ⟨m₁, hi₁, h₁, hcs₁⟩ := hempty.exists_insert (n := Small.group "All"
    [Small.entity "Common" "Person", Small.entity "Common" "Person"]) (by decide) .initial
  obtain ⟨m, hi, hm, hcs⟩ := h₁.exists_insert (n := Small.entity "Common" "Person")
    (by rw [hcs₁]; decide) .initial
  rw [← length_concepts, hcs₁] at hi
  rw [hcs₁] at hcs
  have h : insertEach { registry := Small.registry }
      [⟨Small.group "All" [Small.entity "Common" "Person", Small.entity "Common" "Person"], .initial⟩,
        ⟨Small.entity "Common" "Person", .initial⟩] = .ok ([.added 0 [], .added 1 [0]], m) :=
    insertEach_cons_eq_ok_iff.mpr ⟨_, m₁, _, hi₁,
      insertEach_cons_eq_ok_iff.mpr ⟨_, m, _, hi, rfl, rfl⟩, by decide⟩
  obtain ⟨hcounter, htable, _, _, hreports⟩ := open_references_recorded h
  have hcontains : m.contains = fun k => m.concepts.any fun c => c.key == k :=
    funext hm.contains_eq_any
  refine ⟨m, h, ?_, ?_, ?_, ?_⟩
  · have hmap : m.entries.toList.map Entry.unresolved = m.concepts.map fun n =>
        n.references.countP fun (_, target) => !m.contains target.key := by
      rw [concepts, List.map_map]
      exact List.map_congr_left hcounter
    rw [hmap, hcontains, hcs]
    decide
  · rw [htable, hcontains, hcs]
    decide
  · simpa [Insertion.completed] using hreports 0
  · simpa [Insertion.completed] using hreports 1

end Model

end ConceptScript
