import Mathlib.Data.List.Induction
import ConceptScript.Proofs.Model.Indexes

namespace ConceptScript.Model

theorem countP_sub_countP {α : Type} {p q : α → Bool} {as : List α}
    (h : ∀ a, q a = true → p a = true) :
    as.countP p - as.countP q = as.countP fun a => p a && !q a := by
  have hadd : as.countP p = as.countP q + as.countP fun a => p a && !q a := by
    induction as with
    | nil => rfl
    | cons a as ih =>
      have := h a
      simp only [List.countP_cons]
      grind
  omega

theorem waitsOf_append (vs ws : List Waiting) (i : Nat) :
    waitsOf (vs ++ ws) i = waitsOf vs i + waitsOf ws i :=
  List.countP_append

theorem waitsOf_map_wait (ls : List Link) (entry i : Nat) :
    waitsOf (ls.map (Link.wait entry)) i = if entry = i then ls.length else 0 := by
  unfold waitsOf
  rw [List.countP_map]
  split
  · next h =>
    rw [List.countP_eq_length]
    intro l _
    simpa [Link.wait] using h
  · next h =>
    rw [List.countP_eq_zero]
    intro l _
    simpa [Link.wait] using h

/-- The references of some concepts to a key, by entry. -/
def linksTo (nodes : List Node) (k : String) : List Waiting :=
  nodes.zipIdx.flatMap fun (n, i) => ((links n).filter fun l => l.key == k).map (Link.wait i)

theorem linksTo_append (nodes : List Node) (node : Node) (k : String) :
    linksTo (nodes ++ [node]) k =
      linksTo nodes k ++
        ((links node).filter fun l => l.key == k).map (Link.wait nodes.length) := by
  simp [linksTo, List.zipIdx_append]

theorem mem_linksTo {nodes : List Node} {k : String} {w : Waiting} :
    w ∈ linksTo nodes k ↔
      ∃ n l, nodes[w.entry]? = some n ∧ l ∈ links n ∧ l.key = k ∧ w = l.wait w.entry := by
  unfold linksTo
  simp only [List.mem_flatMap, List.mem_map, List.mem_filter, Prod.exists,
    List.mem_zipIdx_iff_getElem?, beq_iff_eq]
  constructor
  · rintro ⟨n, i, hn, l, ⟨hl, hk⟩, rfl⟩
    exact ⟨n, l, hn, hl, hk, rfl⟩
  · rintro ⟨n, l, hn, hl, hk, hw⟩
    exact ⟨n, w.entry, hn, l, ⟨hl, hk⟩, hw.symm⟩

theorem lt_of_mem_linksTo {nodes : List Node} {k : String} {w : Waiting} (h : w ∈ linksTo nodes k) :
    w.entry < nodes.length := by
  obtain ⟨n, _, hn, _⟩ := mem_linksTo.mp h
  exact (List.getElem?_eq_some_iff.mp hn).1

theorem pairwise_linksTo (nodes : List Node) (k : String) :
    ((linksTo nodes k).map Waiting.entry).Pairwise (· ≤ ·) := by
  induction nodes using List.reverseRecOn with
  | nil => simp [linksTo]
  | append_singleton nodes node ih =>
    rw [linksTo_append, List.map_append, List.pairwise_append]
    refine ⟨ih, by simp [Link.wait, Function.comp_def, List.pairwise_replicate], ?_⟩
    intro i hi j hj
    obtain ⟨w, hw, rfl⟩ := List.mem_map.mp hi
    have hlt := lt_of_mem_linksTo hw
    have hj : j = nodes.length := by
      simp only [List.map_map, List.mem_map, Function.comp_apply] at hj
      obtain ⟨l, _, rfl⟩ := hj
      rfl
    omega

theorem waitsOf_linksTo_of_le {nodes : List Node} {k : String} {i : Nat} (h : nodes.length ≤ i) :
    waitsOf (linksTo nodes k) i = 0 := by
  unfold waitsOf
  rw [List.countP_eq_zero]
  intro w hw he
  obtain ⟨n, _, hn, _⟩ := mem_linksTo.mp hw
  have := (List.getElem?_eq_some_iff.mp hn).1
  simp only [beq_iff_eq] at he
  omega

theorem waitsOf_linksTo {nodes : List Node} {k : String} {i : Nat} {n : Node}
    (h : nodes[i]? = some n) :
    waitsOf (linksTo nodes k) i = (links n).countP fun l => l.key == k := by
  induction nodes using List.reverseRecOn with
  | nil => simp at h
  | append_singleton nodes node ih =>
    rw [linksTo_append, waitsOf_append, waitsOf_map_wait, List.countP_eq_length_filter]
    by_cases hi : i < nodes.length
    · rw [List.getElem?_append_left hi] at h
      rw [ih h, List.countP_eq_length_filter, if_neg (by omega), Nat.add_zero]
    · have hi' : i = nodes.length := by
        have := (List.getElem?_eq_some_iff.mp h).1
        simp only [List.length_append, List.length_singleton] at this
        omega
      subst hi'
      obtain rfl : node = n := by simpa using h
      rw [if_pos rfl, waitsOf_linksTo_of_le (Nat.le_refl _), Nat.zero_add]

/-- What a model keeps of its references is what its concepts say. -/
structure Resolving (m : Model) : Prop where
  unresolved : ∀ (i : Nat) (e : Entry), m.entries[i]? = some e →
    e.unresolved = (links e.node).countP fun l => !m.contains l.key
  waiting : ∀ k, (m.waiting.getD k #[]).toList = if m.contains k then [] else linksTo m.concepts k
  fits : ∀ n ∈ m.concepts, ∀ l ∈ links n, ∀ found, m.find? l.key = some found →
    found.type.satisfies l.target = true
  complete : ∀ n ∈ m.concepts, n.missing = []

theorem Resolving.empty (r : Registry) : Resolving { registry := r } where
  unresolved := by simp
  waiting := by simp [linksTo, concepts]
  fits := by simp [concepts]
  complete := by simp [concepts]

theorem Indexed.contains_eq {m : Model} (h : m.Indexed) (k : String) :
    m.contains k = (m.find? k).isSome := by
  rw [Bool.eq_iff_iff, h.contains_iff, Option.isSome_iff_exists]
  simp only [h.find?_eq_some_iff]

section Growth

variable {m m' : Model} {node : Node} {origin : Origin} {resolved : List Nat}

theorem Grows.contains (g : m.Grows node origin resolved m') (k : String) :
    m'.contains k = (node.key == k || m.contains k) := by
  rw [Model.contains, g.byKey, Std.HashMap.contains_insert, Model.contains]

theorem Grows.find? (h : m.Indexed) (g : m.Grows node origin resolved m') (k : String) :
    m'.find? k = m.answer? node k := by
  have hfree := g.not_mem_keys h
  apply Option.ext
  intro n
  rw [(h.grow g).find?_eq_some_iff, g.concepts, answer?]
  split
  · next hk =>
    subst hk
    constructor
    · rintro ⟨hn, hkey⟩
      rcases List.mem_append.mp hn with hn | hn
      · exact absurd hkey (hfree n hn)
      · rw [List.mem_singleton.mp hn]
    · intro hn
      obtain rfl := Option.some.inj hn
      simp
  · next hk =>
    rw [h.find?_eq_some_iff]
    constructor
    · rintro ⟨hn, hkey⟩
      rcases List.mem_append.mp hn with hn | hn
      · exact ⟨hn, hkey⟩
      · rw [List.mem_singleton.mp hn] at hkey
        exact absurd hkey.symm hk
    · rintro ⟨hn, hkey⟩
      exact ⟨List.mem_append_left _ hn, hkey⟩

theorem Grows.not_contains (h : m.Indexed) (g : m.Grows node origin resolved m') :
    m.contains node.key = false := by
  rw [h.contains_eq, Model.find?, g.free]
  rfl

theorem isNone_answer? (h : m.Indexed) (k : String) :
    (m.answer? node k).isNone = (node.key != k && !m.contains k) := by
  rw [answer?, h.contains_eq]
  by_cases hk : k = node.key
  · simp [hk]
  · simp [hk, Ne.symm hk]

/-- The references that a new concept takes over are all that point at it. -/
theorem taken (h : m.Indexed) (hr : m.Resolving) (hfree : m.contains node.key = false) :
    ((park m.waiting m.size (m.unanswered node)).getD node.key #[]).toList =
      linksTo m.concepts node.key := by
  have hnone : (m.unanswered node).filter (fun l => l.key == node.key) = [] := by
    rw [List.filter_eq_nil_iff]
    intro l hl hk
    have hn := (List.mem_filter.mp hl).2
    rw [isNone_answer? h, beq_iff_eq.mp hk] at hn
    simp at hn
  rw [getD_park, hnone, hr.waiting, hfree]
  simp

theorem unanswered_filter (h : m.Indexed) {k : String} (hk : node.key ≠ k) :
    (m.unanswered node).filter (fun l => l.key == k) =
      if m.contains k then [] else (links node).filter fun l => l.key == k := by
  rw [unanswered, List.filter_filter]
  split
  · next hc =>
    rw [List.filter_eq_nil_iff]
    intro l _ hl
    rw [Bool.and_eq_true, isNone_answer? h] at hl
    obtain ⟨hlk, hl⟩ := hl
    simp [beq_iff_eq.mp hlk, hc] at hl
  · next hc =>
    apply List.filter_congr
    intro l _
    rw [isNone_answer? h]
    by_cases hlk : l.key = k
    · simp [hlk, hk, hc]
    · simp [hlk]

theorem Grows.entry_cases (h : m.Indexed) (hr : m.Resolving) (g : m.Grows node origin resolved m')
    {i : Nat} {e : Entry} (he : m'.entries[i]? = some e) :
    (∃ prior, m.entries[i]? = some prior ∧
      e = { prior with
        unresolved := prior.unresolved - (links prior.node).countP fun l => l.key == node.key }) ∨
    (i = m.size ∧ e = ⟨node, origin, node.key, (m.unanswered node).length⟩) := by
  rw [g.entries_getElem?, taken h hr (g.not_contains h), Array.getElem?_push,
    Option.map_eq_some_iff] at he
  obtain ⟨prior, hp, rfl⟩ := he
  split at hp
  · next hi =>
    obtain rfl := Option.some.inj hp
    rw [waitsOf_linksTo_of_le (Nat.le_of_eq (m.length_concepts.trans hi.symm))]
    exact .inr ⟨hi, rfl⟩
  · rw [waitsOf_linksTo (concept_of_entry hp)]
    exact .inl ⟨prior, hp, rfl⟩

/-- The release of what waits for a new concept has checked its type. -/
theorem Grows.satisfies_of_link (h : m.Indexed) (hr : m.Resolving)
    (g : m.Grows node origin resolved m') {n : Node} (hn : n ∈ m.concepts) {l : Link}
    (hl : l ∈ links n) (hk : l.key = node.key) : node.type.satisfies l.target = true := by
  obtain ⟨i, hi⟩ := List.getElem?_of_mem hn
  have hw : l.wait i ∈ linksTo m.concepts node.key := mem_linksTo.mpr ⟨n, l, hi, hl, hk, rfl⟩
  obtain ⟨completed, hrel, _⟩ := g.released
  rw [taken h hr (g.not_contains h)] at hrel
  have hlt : i < m.size := by simpa using (List.getElem?_eq_some_iff.mp hi).1
  exact release_satisfies hrel _ hw (by rw [Array.size_push]; exact Nat.lt_succ_of_lt hlt)

theorem Resolving.grow (h : m.Indexed) (hr : m.Resolving) (g : m.Grows node origin resolved m') :
    m'.Resolving where
  unresolved := by
    intro i e he
    obtain ⟨prior, hp, rfl⟩ | ⟨_, rfl⟩ := g.entry_cases h hr he
    · dsimp only
      rw [hr.unresolved i prior hp, countP_sub_countP]
      · apply List.countP_congr
        intro l _
        rw [g.contains]
        simp [Bool.beq_comm, and_comm]
      · intro l hl
        simp [beq_iff_eq.mp hl, g.not_contains h]
    · dsimp only
      rw [unanswered, ← List.countP_eq_length_filter]
      apply List.countP_congr
      intro l _
      rw [isNone_answer? h, g.contains]
      simp
  waiting := by
    intro k
    rw [g.waiting, Std.HashMap.getD_erase, g.contains]
    by_cases hk : node.key = k
    · simp [hk]
    · have hpark := unanswered_filter h hk
      rw [if_neg (by simpa using hk), getD_park, hr.waiting, hpark, g.concepts, linksTo_append,
        length_concepts, beq_eq_false_iff_ne.mpr hk, Bool.false_or]
      split <;> simp
  fits := by
    intro n hn l hl found hf
    rw [g.find? h] at hf
    rw [g.concepts] at hn
    rcases List.mem_append.mp hn with hn | hn
    · rw [answer?] at hf
      split at hf
      · next hk =>
        obtain rfl := Option.some.inj hf
        exact g.satisfies_of_link h hr hn hl hk
      · exact hr.fits n hn l hl found hf
    · rw [List.mem_singleton.mp hn] at hl
      exact g.fits l hl found hf
  complete := by
    intro n hn
    rw [g.concepts] at hn
    rcases List.mem_append.mp hn with hn | hn
    · exact hr.complete n hn
    · rw [List.mem_singleton.mp hn]
      exact g.complete

end Growth

/-- What it takes for a model to grow by a concept. -/
theorem exists_grows {m : Model} (h : m.Indexed) (hr : m.Resolving) {node : Node} (origin : Origin)
    (hfree : m.contains node.key = false) (hcomplete : node.missing = [])
    (hfits : ∀ l ∈ links node, ∀ found, m.answer? node l.key = some found →
      found.type.satisfies l.target = true)
    (hwaiting : ∀ n ∈ m.concepts, ∀ l ∈ links n, l.key = node.key →
      node.type.satisfies l.target = true) :
    ∃ resolved m', m.Grows node origin resolved m' := by
  have hnone : m.entry? node.key = none := by
    rw [contains, Std.HashMap.contains_eq_isSome_getElem?, Option.isSome_eq_false_iff,
      Option.isNone_iff_eq_none] at hfree
    rw [Model.entry?, hfree, Option.bind_none]
  have hrelease : ∃ entries completed,
      release node ((park m.waiting m.size (m.unanswered node)).getD node.key #[]).toList
        (m.entries.push ⟨node, origin, node.key, (m.unanswered node).length⟩) =
          .ok (entries, completed) := by
    apply exists_release
    intro w hw _
    rw [taken h hr hfree] at hw
    obtain ⟨n, l, hn, hl, hk, hwait⟩ := mem_linksTo.mp hw
    rw [hwait]
    exact hwaiting n (List.mem_of_getElem? hn) l hl hk
  obtain ⟨entries, completed, hreleased⟩ := hrelease
  refine ⟨_, ⟨m.registry, entries, _, _, _, _, _⟩, hnone, hcomplete, hfits,
    ⟨completed, hreleased, rfl⟩, rfl, rfl, rfl, rfl, rfl, rfl⟩

theorem Reachable.resolving {r : Registry} {m : Model} (h : m.Reachable r) : m.Resolving :=
  Reachable.induct (Resolving.empty r) (fun hm hr g => hr.grow hm.indexed g) h

def resolvedAt (m : Model) (i : Nat) : Bool := (m.entries[i]?.map Entry.isResolved).getD false

theorem lt_size_of_resolvedAt {m : Model} {i : Nat} (h : m.resolvedAt i = true) : i < m.size := by
  by_contra hge
  rw [resolvedAt, Array.getElem?_eq_none (Nat.le_of_not_lt hge)] at h
  simp at h

theorem resolvedAt_iff {m : Model} (h : m.Resolving) {i : Nat} :
    m.resolvedAt i = true ↔
      ∃ n, m.concepts[i]? = some n ∧ ∀ l ∈ links n, m.contains l.key = true := by
  rw [resolvedAt, concepts_getElem?]
  cases he : m.entries[i]? with
  | none => simp
  | some e =>
    simp [Entry.isResolved, h.unresolved i e he]

theorem Resolving.contains_of_resolvedAt {m : Model} (h : m.Resolving) {i : Nat} {n : Node}
    (hi : m.resolvedAt i = true) (hn : m.concepts[i]? = some n) :
    ∀ l ∈ links n, m.contains l.key = true := by
  obtain ⟨n', hn', hlinks⟩ := (resolvedAt_iff h).mp hi
  obtain rfl : n = n' := Option.some.inj (hn.symm.trans hn')
  exact hlinks

section Completion

variable {m m' : Model} {node : Node} {origin : Origin} {resolved : List Nat}

theorem Resolving.waitsOf_le (hr : m.Resolving) {k : String} (hk : m.contains k = false) {i : Nat}
    {e : Entry} (he : m.entries[i]? = some e) : waitsOf (linksTo m.concepts k) i ≤ e.unresolved := by
  rw [waitsOf_linksTo (concept_of_entry he), hr.unresolved i e he]
  apply List.countP_mono_left
  intro l _ hl
  simp [beq_iff_eq.mp hl, hk]

theorem Grows.count_completed (h : m.Indexed) (hr : m.Resolving)
    (g : m.Grows node origin resolved m') {completed : List Nat}
    (hrel : release node (linksTo m.concepts node.key)
      (m.entries.push ⟨node, origin, node.key, (m.unanswered node).length⟩) =
        .ok (m'.entries, completed)) {i : Nat} (hi : i < m.size) :
    completed.count i = if m'.resolvedAt i && !m.resolvedAt i then 1 else 0 := by
  have hget := release_getElem? hrel i
  have hne : i ≠ m.entries.size := Nat.ne_of_lt hi
  rw [resolvedAt, resolvedAt, hget, Array.getElem?_push, if_neg hne]
  obtain ⟨e, he⟩ : ∃ e, m.entries[i]? = some e := ⟨_, Array.getElem?_eq_getElem hi⟩
  have hpush : (m.entries.push ⟨node, origin, node.key, (m.unanswered node).length⟩)[i]? =
      some e := by
    rw [Array.getElem?_push, if_neg hne, he]
  have hw := hr.waitsOf_le (g.not_contains h) he
  -- What is left compares the counter of the entry with zero, before the release and after it.
  rw [release_count hrel hpush hw, he]
  simp only [Option.map_some, Option.getD_some, Entry.isResolved]
  grind

theorem Grows.resolvedAt_size (h : m.Indexed) (hr : m.Resolving)
    (g : m.Grows node origin resolved m') :
    m'.resolvedAt m.size = (m.unanswered node).isEmpty := by
  obtain ⟨completed, hrel, _⟩ := g.released
  rw [taken h hr (g.not_contains h)] at hrel
  have hw : waitsOf (linksTo m.concepts node.key) m.size = 0 :=
    waitsOf_linksTo_of_le (Nat.le_of_eq m.length_concepts)
  rw [resolvedAt, release_getElem? hrel, hw, Model.size, Array.getElem?_push_size]
  cases m.unanswered node <;> rfl

/-- An insertion reports the entries that it completes, its own first and the others in order. -/
theorem Grows.resolved_eq (h : m.Indexed) (hr : m.Resolving)
    (g : m.Grows node origin resolved m') :
    resolved = (if m'.resolvedAt m.size then [m.size] else []) ++
      (List.range m.size).filter fun i => m'.resolvedAt i && !m.resolvedAt i := by
  rw [g.resolvedAt_size h hr]
  obtain ⟨completed, hrel, rfl⟩ := g.released
  rw [taken h hr (g.not_contains h)] at hrel
  have hsub := release_sublist hrel
  have hlt : ∀ i ∈ completed, i < m.size := by
    intro i hi
    obtain ⟨w, hw, rfl⟩ := List.mem_map.mp (hsub.mem hi)
    exact length_concepts m ▸ lt_of_mem_linksTo hw
  have hcount (i : Nat) : completed.count i =
      ((List.range m.size).filter fun i => m'.resolvedAt i && !m.resolvedAt i).count i := by
    by_cases hi : i < m.size
    · rw [g.count_completed h hr hrel hi, List.Nodup.count (List.nodup_range.filter _)]
      simp [hi]
    · rw [List.count_eq_zero.mpr fun hm => hi (hlt i hm), List.count_eq_zero.mpr]
      simp [hi]
  -- Both lists are sorted, so equal counts make them equal.
  have hcompleted : completed =
      (List.range m.size).filter fun i => m'.resolvedAt i && !m.resolvedAt i := by
    refine List.Perm.eq_of_pairwise ?_ ((pairwise_linksTo _ _).sublist hsub)
      (List.pairwise_le_range.sublist List.filter_sublist) (List.perm_iff_count.mpr hcount)
    intro i j _ _ hij hji
    exact Nat.le_antisymm hij hji
  rw [← hcompleted]
  split <;> rfl

theorem Grows.mem_resolved_iff (h : m.Indexed) (hr : m.Resolving)
    (g : m.Grows node origin resolved m') {i : Nat} :
    i ∈ resolved ↔ m'.resolvedAt i = true ∧ m.resolvedAt i = false := by
  have hsize : m.resolvedAt m.size = false := by
    by_contra hat
    exact Nat.lt_irrefl _ (lt_size_of_resolvedAt (by simpa using hat))
  rw [g.resolved_eq h hr, List.mem_append, List.mem_filter, List.mem_range]
  constructor
  · rintro (hi | ⟨_, hi⟩)
    · split at hi
      · next hat =>
        rw [List.mem_singleton.mp hi]
        exact ⟨hat, hsize⟩
      · simp at hi
    · simpa using hi
  · rintro ⟨hat, hbefore⟩
    have hle := lt_size_of_resolvedAt hat
    rw [g.size] at hle
    rcases Nat.lt_or_eq_of_le (Nat.le_of_lt_succ hle) with hi | rfl
    · exact .inr ⟨hi, by simp [hat, hbefore]⟩
    · exact .inl (by simp [hat])

end Completion

theorem dangling_eq_nil_iff {m : Model} :
    m.dangling = [] ↔ ∀ k, (m.waiting.getD k #[]).toList = [] := by
  rw [dangling, ← List.length_eq_zero_iff, List.length_mergeSort, List.length_eq_zero_iff,
    List.flatMap_eq_nil_iff]
  simp only [List.map_eq_nil_iff, Prod.forall, Std.HashMap.mem_toList_iff_getElem?_eq_some,
    Std.HashMap.getD_eq_getD_getElem?]
  constructor
  · intro h k
    cases hk : m.waiting[k]? with
    | none => rfl
    | some ws => exact h k ws hk
  · intro h k ws hk
    simpa [hk] using h k

theorem checkResolved_eq_ok_iff {m : Model} (h : m.Resolving) {u : Unit} :
    m.checkResolved = .ok u ↔ ∀ n ∈ m.concepts, ∀ l ∈ links n, m.contains l.key = true := by
  have hd : m.checkResolved = .ok u ↔ m.dangling = [] := by
    unfold checkResolved
    cases m.dangling <;> simp
  rw [hd, dangling_eq_nil_iff]
  simp only [h.waiting]
  constructor
  · intro hw n hn l hl
    by_contra hc
    obtain ⟨i, hi⟩ := List.getElem?_of_mem hn
    have hm : l.wait i ∈ linksTo m.concepts l.key := mem_linksTo.mpr ⟨n, l, hi, hl, rfl, rfl⟩
    have := hw l.key
    rw [if_neg hc] at this
    simp [this] at hm
  · intro hc k
    split
    · rfl
    · next hk =>
      rw [List.eq_nil_iff_forall_not_mem]
      intro w hw
      obtain ⟨n, l, hn, hl, rfl, _⟩ := mem_linksTo.mp hw
      exact hk (hc n (List.mem_of_getElem? hn) l hl)

end ConceptScript.Model
