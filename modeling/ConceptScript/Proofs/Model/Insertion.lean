import ConceptScript.Model
import ConceptScript.Proofs.Outcome

namespace ConceptScript

namespace Index

def pushAll (index : Index) (names : List String) (entry : Nat) : Index :=
  names.foldl (·.push · entry) index

theorem getD_push (index : Index) (name : String) (entry : Nat) (k : String) :
    ((index.push name entry).getD k #[]).toList =
      (index.getD k #[]).toList ++ if name = k then [entry] else [] := by
  unfold push
  rw [Std.HashMap.getD_alter]
  by_cases h : name = k
  · subst h
    simp [Std.HashMap.getD_eq_getD_getElem?]
  · simp [h]

theorem getD_pushAll (index : Index) (names : List String) (entry : Nat) (k : String) :
    ((index.pushAll names entry).getD k #[]).toList =
      (index.getD k #[]).toList ++ List.replicate (names.count k) entry := by
  induction names generalizing index with
  | nil => simp [pushAll]
  | cons name names ih =>
    have h := ih (index.push name entry)
    rw [getD_push] at h
    by_cases hk : name = k
    · simpa [pushAll, hk, List.count_cons, List.replicate_succ] using h
    · simpa [pushAll, hk, List.count_cons] using h

end Index

namespace Model

def referenceKeys (node : Node) : List String := ((links node).map Link.key).eraseDups

def parentKeys (node : Node) : List String := (node.parent?.map Node.key).toList

/-- What a reference of a new concept finds: the concept itself or one of the model. -/
def answer? (m : Model) (node : Node) (key : String) : Option Node :=
  if key = node.key then some node else m.find? key

/-- The links of a new concept that find nothing. -/
def unanswered (m : Model) (node : Node) : List Link :=
  (links node).filter fun l => (m.answer? node l.key).isNone

theorem checkTarget_eq_ok {node : Node} {origin : Origin} {member : String} {target : Target}
    {found : Node} {u : Unit} :
    checkTarget node origin member target found = .ok u ↔ found.type.satisfies target = true := by
  unfold checkTarget
  split <;> simp_all

theorem openLinks_eq_ok_iff {m : Model} {node : Node} {origin : Origin} {ls missing : List Link} :
    m.openLinks node origin ls = .ok missing ↔
      (∀ l ∈ ls, ∀ found, m.answer? node l.key = some found →
        found.type.satisfies l.target = true) ∧
        missing = ls.filter fun l => (m.answer? node l.key).isNone := by
  induction ls generalizing missing with
  | nil => simp [openLinks, @eq_comm (List Link) [] missing]
  | cons l ls ih =>
    cases ha : m.answer? node l.key with
    | some found =>
      have hm : m.openLinks node origin (l :: ls) = (do
          checkTarget node origin l.member l.target found
          m.openLinks node origin ls) := by
        rw [openLinks]
        unfold answer? at ha
        rw [ha]
      rw [hm]
      simp [bind_eq_ok, checkTarget_eq_ok, ih, ha, and_assoc]
    | none =>
      have hm : m.openLinks node origin (l :: ls) = (do
          let rest ← m.openLinks node origin ls
          return l :: rest) := by
        rw [openLinks]
        unfold answer? at ha
        rw [ha]
      rw [hm]
      constructor
      · intro h
        obtain ⟨rest, hr, he⟩ := bind_eq_ok.mp h
        rw [ih] at hr
        simp_all
      · rintro ⟨hc, rfl⟩
        refine bind_eq_ok.mpr
          ⟨_, ih.mpr ⟨fun l' hl' => hc l' (List.mem_cons_of_mem l hl'), rfl⟩, ?_⟩
        simp [ha]

/-- How many of some waiting references belong to an entry. -/
def waitsOf (ws : List Waiting) (i : Nat) : Nat := ws.countP fun w => w.entry == i

theorem release_cons_eq_ok_iff {node : Node} {w : Waiting} {ws : List Waiting}
    {entries entries' : Array Entry} {resolved : List Nat} {waiter : Entry}
    (h : entries[w.entry]? = some waiter) :
    release node (w :: ws) entries = .ok (entries', resolved) ↔
      node.type.satisfies w.target = true ∧
        ∃ rest, release node ws (entries.setIfInBounds w.entry
            { waiter with unresolved := waiter.unresolved - 1 }) = .ok (entries', rest) ∧
          resolved = if waiter.unresolved - 1 = 0 then w.entry :: rest else rest := by
  rw [release, h]
  simp only [bind_eq_ok, checkTarget_eq_ok, exists_const, Prod.exists, pure_eq_ok, Prod.mk.injEq]
  constructor
  · rintro ⟨hc, entries'', rest, hr, rfl, rfl⟩
    exact ⟨hc, rest, hr, rfl⟩
  · rintro ⟨hc, rest, hr, rfl⟩
    exact ⟨hc, entries', rest, hr, rfl, rfl⟩

/-- Each entry loses as many open references as it has among those released. -/
theorem release_getElem? {node : Node} {ws : List Waiting} {entries entries' : Array Entry}
    {resolved : List Nat} (h : release node ws entries = .ok (entries', resolved)) (i : Nat) :
    entries'[i]? =
      entries[i]?.map fun e => { e with unresolved := e.unresolved - waitsOf ws i } := by
  induction ws generalizing entries resolved with
  | nil =>
    obtain ⟨rfl, rfl⟩ := Prod.mk.inj (Except.ok.inj h)
    simp [waitsOf]
  | cons w ws ih =>
    cases hw : entries[w.entry]? with
    | none =>
      rw [release, hw] at h
      rw [ih h]
      by_cases hi : w.entry = i
      · simp [← hi, hw]
      · simp [waitsOf, hi]
    | some waiter =>
      obtain ⟨_, rest, hr, _⟩ := (release_cons_eq_ok_iff hw).mp h
      rw [ih hr, Array.getElem?_setIfInBounds]
      by_cases hi : w.entry = i
      · subst hi
        have hlt : w.entry < entries.size := (Array.getElem?_eq_some_iff.mp hw).1
        rw [hw, if_pos rfl, if_pos hlt]
        simp [waitsOf, Nat.sub_sub, Nat.add_comm]
      · simp [waitsOf, hi]

theorem release_satisfies {node : Node} {ws : List Waiting} {entries entries' : Array Entry}
    {resolved : List Nat} (h : release node ws entries = .ok (entries', resolved)) :
    ∀ w ∈ ws, w.entry < entries.size → node.type.satisfies w.target = true := by
  induction ws generalizing entries resolved with
  | nil => simp
  | cons w ws ih =>
    intro v hv hlt
    cases hw : entries[w.entry]? with
    | none =>
      rw [release, hw] at h
      have := Array.getElem?_eq_none_iff.mp hw
      rcases List.mem_cons.mp hv with rfl | hv
      · omega
      · exact ih h v hv hlt
    | some waiter =>
      obtain ⟨hc, rest, hr, _⟩ := (release_cons_eq_ok_iff hw).mp h
      rcases List.mem_cons.mp hv with rfl | hv
      · exact hc
      · exact ih hr v hv (by simpa using hlt)

theorem exists_release {node : Node} {ws : List Waiting} {entries : Array Entry}
    (h : ∀ w ∈ ws, w.entry < entries.size → node.type.satisfies w.target = true) :
    ∃ entries' resolved, release node ws entries = .ok (entries', resolved) := by
  induction ws generalizing entries with
  | nil => exact ⟨entries, [], rfl⟩
  | cons w ws ih =>
    have hs : ∀ v ∈ ws, v.entry < entries.size → node.type.satisfies v.target = true :=
      fun v hv => h v (List.mem_cons_of_mem w hv)
    cases hw : entries[w.entry]? with
    | none =>
      rw [release, hw]
      exact ih hs
    | some waiter =>
      have hlt : w.entry < entries.size := (Array.getElem?_eq_some_iff.mp hw).1
      have hs' : ∀ v ∈ ws, v.entry < (entries.setIfInBounds w.entry
          { waiter with unresolved := waiter.unresolved - 1 }).size →
          node.type.satisfies v.target = true := by
        simpa using hs
      obtain ⟨entries', rest, hr⟩ := ih hs'
      exact ⟨entries', _, (release_cons_eq_ok_iff hw).mpr
        ⟨h w List.mem_cons_self hlt, rest, hr, rfl⟩⟩

theorem release_sublist {node : Node} {ws : List Waiting} {entries entries' : Array Entry}
    {resolved : List Nat} (h : release node ws entries = .ok (entries', resolved)) :
    resolved.Sublist (ws.map Waiting.entry) := by
  induction ws generalizing entries resolved with
  | nil =>
    obtain ⟨rfl, rfl⟩ := Prod.mk.inj (Except.ok.inj h)
    exact List.Sublist.refl _
  | cons w ws ih =>
    rw [List.map_cons]
    cases hw : entries[w.entry]? with
    | none =>
      rw [release, hw] at h
      exact (ih h).cons _
    | some waiter =>
      obtain ⟨_, rest, hr, rfl⟩ := (release_cons_eq_ok_iff hw).mp h
      split
      · exact (ih hr).cons_cons _
      · exact (ih hr).cons _

/-- An entry is reported once, when the last of its open references is released. -/
theorem release_count {node : Node} {ws : List Waiting} {entries entries' : Array Entry}
    {resolved : List Nat} (h : release node ws entries = .ok (entries', resolved))
    {i : Nat} {e : Entry} (he : entries[i]? = some e) (hle : waitsOf ws i ≤ e.unresolved) :
    resolved.count i = if 0 < waitsOf ws i ∧ waitsOf ws i = e.unresolved then 1 else 0 := by
  induction ws generalizing entries resolved e with
  | nil =>
    obtain ⟨rfl, rfl⟩ := Prod.mk.inj (Except.ok.inj h)
    simp [waitsOf]
  | cons w ws ih =>
    by_cases hi : w.entry = i
    · subst hi
      obtain ⟨_, rest, hr, rfl⟩ := (release_cons_eq_ok_iff he).mp h
      have hlt : w.entry < entries.size := (Array.getElem?_eq_some_iff.mp he).1
      have hc : waitsOf (w :: ws) w.entry = waitsOf ws w.entry + 1 := by simp [waitsOf]
      have hrest := ih hr (by rw [Array.getElem?_setIfInBounds_self_of_lt hlt])
        (by dsimp only; omega)
      dsimp only at hrest
      rw [hc] at hle ⊢
      -- If this was its last open reference, no later one can report the entry again.
      by_cases hlast : e.unresolved - 1 = 0
      · rw [if_pos hlast, List.count_cons_self, hrest, if_neg (by omega), if_pos (by omega)]
      · rw [if_neg hlast, hrest]
        by_cases hall : waitsOf ws w.entry + 1 = e.unresolved
        · rw [if_pos (by omega), if_pos (by omega)]
        · rw [if_neg (by omega), if_neg (by omega)]
    · have hc : waitsOf (w :: ws) i = waitsOf ws i := by simp [waitsOf, hi]
      rw [hc] at hle ⊢
      cases hw : entries[w.entry]? with
      | none =>
        rw [release, hw] at h
        exact ih h he hle
      | some waiter =>
        obtain ⟨_, rest, hr, rfl⟩ := (release_cons_eq_ok_iff hw).mp h
        rw [← ih hr (by simpa [Array.getElem?_setIfInBounds, hi] using he) hle]
        split <;> simp [hi]

def Link.wait (entry : Nat) (l : Link) : Waiting := ⟨entry, l.member, l.target⟩

theorem getD_park (waiting : Std.HashMap String (Array Waiting)) (entry : Nat) (missing : List Link)
    (k : String) :
    ((park waiting entry missing).getD k #[]).toList =
      (waiting.getD k #[]).toList ++
        (missing.filter fun l => l.key == k).map (Link.wait entry) := by
  induction missing generalizing waiting with
  | nil => simp [park]
  | cons l ls ih =>
    have h := ih (waiting.alter l.key fun ws => some ((ws.getD #[]).push (l.wait entry)))
    rw [Std.HashMap.getD_alter] at h
    by_cases hk : l.key = k
    · subst hk
      simpa [park, Link.wait, Std.HashMap.getD_eq_getD_getElem?] using h
    · simpa [park, Link.wait, hk] using h

/-- How a model grows by a concept under a free key, and which entries that completes. -/
structure Grows (m : Model) (node : Node) (origin : Origin) (resolved : List Nat) (m' : Model) :
    Prop where
  free : m.entry? node.key = none
  complete : node.missing = []
  fits : ∀ l ∈ links node, ∀ found, m.answer? node l.key = some found →
    found.type.satisfies l.target = true
  released : ∃ completed,
    release node ((park m.waiting m.size (m.unanswered node)).getD node.key #[]).toList
      (m.entries.push ⟨node, origin, node.key, (m.unanswered node).length⟩) =
        .ok (m'.entries, completed) ∧
    resolved = if (m.unanswered node).isEmpty then m.size :: completed else completed
  registry : m'.registry = m.registry
  byKey : m'.byKey = m.byKey.insert node.key m.size
  byType : m'.byType = Index.pushAll m.byType node.type.ancestors m.size
  byReference : m'.byReference = Index.pushAll m.byReference (referenceKeys node) m.size
  byParent : m'.byParent = Index.pushAll m.byParent (parentKeys node) m.size
  waiting : m'.waiting = (park m.waiting m.size (m.unanswered node)).erase node.key

theorem byParent_pushAll (index : Index) (node : Node) (entry : Nat) :
    (match node.parent? with
      | some parent => index.push parent.key entry
      | none => index) = index.pushAll (parentKeys node) entry := by
  unfold parentKeys
  cases node.parent? <;> rfl

theorem add_eq_ok_iff {m m' : Model} {node : Node} {origin : Origin} {insertion : Insertion}
    (hf : m.entry? node.key = none) (hc : node.missing = []) :
    m.add node origin = .ok (insertion, m') ↔
      ∃ resolved, insertion = .added m.size resolved ∧ m.Grows node origin resolved m' := by
  unfold add
  simp only [bind_eq_ok, openLinks_eq_ok_iff, Prod.exists, pure_eq_ok, Prod.mk.injEq]
  constructor
  · rintro ⟨_, ⟨hfit, rfl⟩, entries, completed, hr, rfl, rfl⟩
    exact ⟨_, rfl, hf, hc, hfit, ⟨completed, hr, rfl⟩, rfl, rfl, rfl, rfl,
      byParent_pushAll .., rfl⟩
  · rintro ⟨resolved, rfl, g⟩
    obtain ⟨completed, hr, rfl⟩ := g.released
    refine ⟨_, ⟨g.fits, rfl⟩, m'.entries, completed, hr, rfl, ?_⟩
    cases m' with
    | mk registry entries byKey byType byReference byParent waiting =>
      obtain rfl := g.registry
      obtain rfl := g.byKey
      obtain rfl := g.byType
      obtain rfl := g.byReference
      obtain rfl := g.byParent
      obtain rfl := g.waiting
      rw [← byParent_pushAll]
      rfl

/-- An insertion finds the concept there already, or the model grows by it. -/
theorem insert_eq_ok_iff {m m' : Model} {node : Node} {origin : Origin} {insertion : Insertion} :
    m.insert node origin = .ok (insertion, m') ↔
      (∃ prior, m.entry? node.key = some prior ∧ prior.node.same node = true ∧
        insertion = .duplicate ∧ m' = m) ∨
      ∃ resolved, insertion = .added m.size resolved ∧ m.Grows node origin resolved m' := by
  unfold insert
  cases he : m.entry? node.key with
  | some prior =>
    constructor
    · intro h
      dsimp only at h
      split at h
      · next hs =>
        obtain ⟨rfl, rfl⟩ := Prod.mk.inj (Except.ok.inj h)
        exact .inl ⟨prior, rfl, hs, rfl, rfl⟩
      · simp at h
    · rintro (⟨_, ⟨rfl⟩, hs, rfl, rfl⟩ | ⟨_, _, g⟩)
      · simp [hs]
      · simp [g.free] at he
  | none =>
    constructor
    · intro h
      dsimp only at h
      split at h
      · simp at h
      · next hm => exact .inr ((add_eq_ok_iff he (by simpa using hm)).mp h)
    · rintro (⟨_, hn, _⟩ | ⟨resolved, rfl, g⟩)
      · simp at hn
      · simpa [g.complete] using (add_eq_ok_iff he g.complete).mpr ⟨resolved, rfl, g⟩

end Model

end ConceptScript
