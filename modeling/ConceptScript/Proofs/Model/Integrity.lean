import Mathlib.Data.List.Perm.Basic
import ConceptScript.Proofs.Model.Listing

namespace ConceptScript

/-- A reference of an entry that finds nothing. -/
structure OpenReference where
  index : Nat
  entry : Entry
  member : Member
  target : Node

namespace OpenReference

def le (a b : OpenReference) : Prop :=
  a.index < b.index ∨ a.index = b.index ∧ a.target.key ≤ b.target.key

/-- What the table of a model keeps of the reference, with its key. -/
def record (o : OpenReference) : String × Waiting :=
  (o.target.key, ⟨o.index, o.member.name, o.member.kind.target?.getD .any⟩)

end OpenReference

namespace Model

/-- The references that find nothing, entry by entry. -/
def openReferences (m : Model) : List OpenReference :=
  m.entries.toList.zipIdx.flatMap fun (e, i) =>
    (e.node.references.filter fun (_, target) => (m.entry? target.key).isNone).map
      fun (member, target) => ⟨i, e, member, target⟩

def waitingList (m : Model) : List (String × Waiting) :=
  m.waiting.toList.flatMap fun (key, ws) => ws.toList.map fun w => (key, w)

theorem dangling_perm_waitingList (m : Model) : m.dangling.Perm m.waitingList :=
  List.mergeSort_perm _ _

theorem pairwise_dangling (m : Model) : m.dangling.Pairwise fun a b =>
    a.2.entry < b.2.entry ∨ a.2.entry = b.2.entry ∧ a.1 ≤ b.1 := by
  have htrans (a b c : String × Waiting)
      (hab : (a.2.entry < b.2.entry || (a.2.entry == b.2.entry && decide (a.1 ≤ b.1))) = true)
      (hbc : (b.2.entry < c.2.entry || (b.2.entry == c.2.entry && decide (b.1 ≤ c.1))) = true) :
      (a.2.entry < c.2.entry || (a.2.entry == c.2.entry && decide (a.1 ≤ c.1))) = true := by
    simp only [Bool.or_eq_true, Bool.and_eq_true, decide_eq_true_eq, beq_iff_eq] at hab hbc ⊢
    rcases hab with hab | ⟨hab, hk⟩
    · exact .inl (by omega)
    · rcases hbc with hbc | ⟨hbc, hl⟩
      · exact .inl (by omega)
      · exact .inr ⟨by omega, String.le_trans hk hl⟩
  have htotal (a b : String × Waiting) :
      ((a.2.entry < b.2.entry || (a.2.entry == b.2.entry && decide (a.1 ≤ b.1))) ||
        (b.2.entry < a.2.entry || (b.2.entry == a.2.entry && decide (b.1 ≤ a.1)))) = true := by
    simp only [Bool.or_eq_true, Bool.and_eq_true, decide_eq_true_eq, beq_iff_eq]
    rcases Nat.lt_trichotomy a.2.entry b.2.entry with hlt | heq | hgt
    · exact .inl (.inl hlt)
    · rcases String.le_total a.1 b.1 with hab | hba
      · exact .inl (.inr ⟨heq, hab⟩)
      · exact .inr (.inr ⟨heq.symm, hba⟩)
    · exact .inr (.inl hgt)
  refine (List.pairwise_mergeSort htrans htotal m.waitingList).imp ?_
  intro a b hab
  simpa using hab

theorem count_map_pair (key k : String) (ws : List Waiting) (w : Waiting) :
    (ws.map fun w => (key, w)).count (k, w) = if key = k then ws.count w else 0 := by
  rw [List.count_eq_countP, List.countP_map, List.count_eq_countP]
  split
  · next hk =>
    apply List.countP_congr
    intro v _
    simp [hk]
  · next hk =>
    rw [List.countP_eq_zero]
    intro v _
    simp [hk]

theorem count_flatMap_of_not_mem {table : List (String × Array Waiting)} {k : String}
    (h : ∀ entry ∈ table, entry.1 ≠ k) (w : Waiting) :
    (table.flatMap fun (key, ws) => ws.toList.map fun w => (key, w)).count (k, w) = 0 := by
  rw [List.count_eq_zero, List.mem_flatMap]
  rintro ⟨⟨key, ws⟩, hmem, hw⟩
  obtain ⟨_, _, hp⟩ := List.mem_map.mp hw
  exact h (key, ws) hmem (congrArg Prod.fst hp)

theorem count_waitingList (m : Model) (k : String) (w : Waiting) :
    m.waitingList.count (k, w) = (m.waiting.getD k #[]).toList.count w := by
  rw [Std.HashMap.getD_eq_getD_getElem?]
  have hmem := fun ws => Std.HashMap.mem_toList_iff_getElem?_eq_some (m := m.waiting) (k := k)
    (v := ws)
  cases hk : m.waiting[k]? with
  | none =>
    apply count_flatMap_of_not_mem
    rintro ⟨key, ws⟩ hentry rfl
    rw [hmem, hk] at hentry
    cases hentry
  | some ws =>
    -- All other keys of the table are different from this one.
    obtain ⟨before, after, hsplit⟩ := List.append_of_mem ((hmem ws).mpr hk)
    have hdistinct := Std.HashMap.distinct_keys_toList (m := m.waiting)
    rw [hsplit, List.pairwise_append, List.pairwise_cons] at hdistinct
    obtain ⟨_, ⟨hafter, _⟩, hbefore⟩ := hdistinct
    have hb : ∀ entry ∈ before, entry.1 ≠ k := by
      intro entry he
      simpa using hbefore entry he (k, ws) List.mem_cons_self
    have ha : ∀ entry ∈ after, entry.1 ≠ k := by
      intro entry he hkey
      have := hafter entry he
      simp [hkey] at this
    rw [waitingList, hsplit, List.flatMap_append, List.flatMap_cons, List.count_append,
      List.count_append, count_flatMap_of_not_mem hb, count_flatMap_of_not_mem ha, count_map_pair,
      if_pos rfl, Nat.zero_add, Nat.add_zero]
    rfl

/-- The open references of an entry with one key, or none if the key is taken. -/
theorem count_openLinks {m : Model} (n : Node) (i : Nat) (k : String) (w : Waiting) :
    (((links n).filter fun l => !m.contains l.key).map fun l => (l.key, l.wait i)).count (k, w) =
      if m.contains k then 0
      else (((links n).filter fun l => l.key == k).map (Link.wait i)).count w := by
  rw [List.count_eq_countP, List.countP_map, List.countP_filter]
  split
  · next hk =>
    rw [List.countP_eq_zero]
    intro l _ hl
    simp only [Function.comp_apply, Bool.and_eq_true, beq_iff_eq, Prod.mk.injEq] at hl
    obtain ⟨⟨rfl, _⟩, hc⟩ := hl
    simp [hk] at hc
  · next hk =>
    rw [List.count_eq_countP, List.countP_map, List.countP_filter]
    apply List.countP_congr
    intro l _
    simp only [Function.comp_apply, Bool.and_eq_true, beq_iff_eq, Prod.mk.injEq]
    constructor
    · rintro ⟨⟨rfl, hw⟩, _⟩
      exact ⟨hw, rfl⟩
    · rintro ⟨hw, rfl⟩
      exact ⟨⟨rfl, hw⟩, by simpa using hk⟩

theorem Indexed.contains_eq_isSome {m : Model} (h : m.Indexed) (k : String) :
    m.contains k = (m.entry? k).isSome := by
  rw [h.contains_eq, find?, Option.isSome_map]

theorem Indexed.map_record {m : Model} (h : m.Indexed) :
    m.openReferences.map OpenReference.record = m.concepts.zipIdx.flatMap fun p =>
      ((links p.1).filter fun l => !m.contains l.key).map fun l => (l.key, l.wait p.2) := by
  rw [openReferences, concepts, List.zipIdx_map, List.flatMap_map, List.map_flatMap]
  congr 1
  funext p
  simp only [links, List.filter_map, List.map_map, h.contains_eq_isSome, Option.not_isSome,
    Function.comp_def]
  rfl

/-- What waits is what finds nothing, with multiplicity. -/
theorem waitingList_perm {m : Model} (h : m.Indexed) (hr : m.Resolving) :
    m.waitingList.Perm (m.openReferences.map OpenReference.record) := by
  rw [h.map_record, List.perm_iff_count]
  rintro ⟨k, w⟩
  rw [count_waitingList, hr.waiting, List.count_flatMap]
  have hat : (List.count (k, w) ∘ fun (p : Node × Nat) =>
      ((links p.1).filter fun l => !m.contains l.key).map fun l => (l.key, l.wait p.2)) =
      fun p => if m.contains k then 0
        else (((links p.1).filter fun l => l.key == k).map (Link.wait p.2)).count w :=
    funext fun p => count_openLinks p.1 p.2 k w
  rw [hat]
  split
  · simp
  · rw [linksTo, List.count_flatMap]
    rfl

theorem Reachable.exists_dangling {r : Registry} {m : Model} (h : m.Reachable r) :
    ∃ missing : List OpenReference, missing.Perm m.openReferences ∧
      missing.Pairwise OpenReference.le ∧ m.dangling = missing.map OpenReference.record := by
  have hperm := m.dangling_perm_waitingList.trans (waitingList_perm h.indexed h.resolving)
  have hrecord : List.Forall₂ (fun r o => r = OpenReference.record o)
      (m.openReferences.map OpenReference.record) m.openReferences := by
    simp [List.forall₂_map_left_iff, List.forall₂_same]
  obtain ⟨missing, hmap, hmissing⟩ := List.perm_comp_forall₂ hperm hrecord
  have hdangling : m.dangling = missing.map OpenReference.record := by
    have := map_eq_map_of_forall₂ (f := id) hmap fun _ _ hr => hr
    rwa [List.map_id] at this
  refine ⟨missing, hmissing, ?_, hdangling⟩
  have hsorted := m.pairwise_dangling
  rw [hdangling, List.pairwise_map] at hsorted
  exact hsorted

theorem mem_openReferences {m : Model} {o : OpenReference} (h : o ∈ m.openReferences) :
    m.entries[o.index]? = some o.entry := by
  simp only [openReferences, List.mem_flatMap, List.mem_map, Prod.exists,
    List.mem_zipIdx_iff_getElem?] at h
  obtain ⟨e, i, he, _, _, _, rfl⟩ := h
  simpa using he

theorem checkResolved_eq_error {m : Model} {d : Diagnostic} (h : m.checkResolved = .error d) :
    ∃ target first rest, m.dangling = (target, first) :: rest ∧
      d.code = .unresolvedReference ∧
      d.message = s!"member '{first.member}' of '{m.keyAt first.entry}' references '{target}', which is not defined" ∧
      d.location = (m.entries[first.entry]?.bind fun e => e.origin.location?) ∧
      d.details = m.dangling.map fun (k, w) =>
        s!"'{m.keyAt w.entry}' member '{w.member}' references missing '{k}'" := by
  unfold checkResolved at h
  cases hd : m.dangling with
  | nil => simp [hd] at h
  | cons head rest =>
    rw [hd] at h
    obtain rfl := Except.error.inj h
    exact ⟨head.1, head.2, rest, rfl, rfl, rfl, rfl, rfl⟩

/-- In every model that insertions reach, a reference that finds an entry finds one of the type that
its member declares. The check succeeds exactly if all references find an entry. Otherwise its
details are the references that do not, by entry and then by key, and it says and locates the first
of them. -/
theorem references_checked {r : Registry} {m : Model} (h : m.Reachable r) :
    (∀ e ∈ m.entries.toList, ∀ member reference, (member, reference) ∈ e.node.references →
      ∀ found, m.entry? reference.key = some found →
        ∀ target, member.kind.target? = some target → found.node.type.satisfies target = true) ∧
    (m.checkResolved = .ok () ↔
      ∀ e ∈ m.entries.toList, ∀ member reference, (member, reference) ∈ e.node.references →
        (m.entry? reference.key).isSome = true) ∧
    ∀ d, m.checkResolved = .error d →
      ∃ first rest, (first :: rest).Perm m.openReferences ∧
        (first :: rest).Pairwise OpenReference.le ∧
        d.code = .unresolvedReference ∧
        d.message = s!"member '{first.member.name}' of '{first.entry.key}' references '{first.target.key}', which is not defined" ∧
        d.location = first.entry.origin.location? ∧
        d.details = (first :: rest).map fun o =>
          s!"'{o.entry.key}' member '{o.member.name}' references missing '{o.target.key}'" := by
  refine ⟨?_, ?_, ?_⟩
  · intro e he member reference href found hfound target htarget
    have hlink : (⟨member.name, target, reference.key⟩ : Link) ∈ links e.node :=
      List.mem_map.mpr ⟨_, href, by simp [htarget]⟩
    exact h.resolving.fits e.node (List.mem_map_of_mem he) _ hlink found.node
      (by rw [find?, hfound, Option.map_some])
  · rw [checkResolved_eq_ok_iff h.resolving]
    simp only [concepts, links, List.forall_mem_map, h.indexed.contains_eq_isSome, Prod.forall]
  · intro d hd
    obtain ⟨missing, hperm, hsorted, hdangling⟩ := h.exists_dangling
    obtain ⟨target, record, rest, hcons, hcode, hmessage, hlocation, hdetails⟩ :=
      checkResolved_eq_error hd
    have hentry : ∀ o ∈ missing, m.entries[o.index]? = some o.entry := fun o ho =>
      mem_openReferences (hperm.mem_iff.mp ho)
    have hkey : ∀ o ∈ missing, m.keyAt o.index = o.entry.key := by
      intro o ho
      rw [keyAt, hentry o ho]
      rfl
    cases missing with
    | nil => simp [hdangling] at hcons
    | cons first others =>
      rw [hdangling, List.map_cons] at hcons
      obtain ⟨rfl, rfl⟩ := Prod.mk.inj (List.cons.inj hcons).1
      refine ⟨first, others, hperm, hsorted, hcode, ?_, ?_, ?_⟩
      · rw [hmessage, hkey first List.mem_cons_self]
      · rw [hlocation, hentry first List.mem_cons_self]
        rfl
      · rw [hdetails, hdangling, List.map_map]
        apply List.map_congr_left
        intro o ho
        simp only [Function.comp_apply, OpenReference.record, hkey o ho]

/-- A group finds its entity, and the entity does not find its module. -/
theorem references_checked_small :
    ∃ m : Model, m.Reachable Small.registry ∧
      m.concepts = [Small.group "All" [Small.entity "Common" "Person"],
        Small.entity "Common" "Person"] ∧
      (∃ found, m.entry? "Entity Common.Person" = some found ∧
        found.node.type.satisfies (.concept "Entity") = true) ∧
      ∃ d, m.checkResolved = .error d ∧ d.code = .unresolvedReference ∧ d.details.length = 1 := by
  have hempty : Model.Reachable Small.registry { registry := Small.registry } := .empty
  obtain ⟨m₁, h₁, hcs₁⟩ := hempty.exists_grown
    (n := Small.group "All" [Small.entity "Common" "Person"]) (by decide)
  obtain ⟨m, h, hcs⟩ := h₁.exists_grown (n := Small.entity "Common" "Person")
    (by rw [hcs₁]; decide)
  rw [hcs₁] at hcs
  have hcontains : m.contains = fun k => m.concepts.any fun c => c.key == k :=
    funext h.contains_eq_any
  obtain ⟨htypes, hok, herror⟩ := references_checked h
  refine ⟨m, h, hcs, ?_, ?_⟩
  · have hsome : (m.entry? "Entity Common.Person").isSome = true := by
      rw [← h.indexed.contains_eq_isSome, hcontains, hcs]
      decide
    obtain ⟨found, hfound⟩ := Option.isSome_iff_exists.mp hsome
    obtain ⟨e, he, hnode⟩ := List.mem_map.mp (show Small.group "All" [Small.entity "Common" "Person"]
      ∈ m.concepts by rw [hcs]; exact List.mem_cons_self)
    refine ⟨found, hfound, ?_⟩
    exact htypes e he ⟨"Entities", .list (.concept "Entity"), false, false⟩
      (Small.entity "Common" "Person") (by rw [hnode]; exact List.mem_cons_self) found hfound _ rfl
  · have hopen : m.openReferences.length = 1 := by
      rw [← List.length_map OpenReference.record, h.indexed.map_record, hcontains, hcs]
      decide
    cases hd : m.checkResolved with
    | error d =>
      obtain ⟨first, rest, hperm, _, hcode, _, _, hdetails⟩ := herror d hd
      exact ⟨d, rfl, hcode, by rw [hdetails, List.length_map, hperm.length_eq, hopen]⟩
    | ok u =>
      have hall := hok.mp hd
      obtain ⟨e, he, hnode⟩ := List.mem_map.mp (show Small.entity "Common" "Person" ∈ m.concepts by
        rw [hcs]; exact List.mem_cons_of_mem _ List.mem_cons_self)
      have hmodule := hall e he ⟨"Module", .reference (.concept "Module"), true, true⟩
        (Small.module "Common") (by rw [hnode]; exact List.mem_cons_self)
      rw [← h.indexed.contains_eq_isSome, hcontains, hcs] at hmodule
      exact absurd hmodule (by decide)

end Model

end ConceptScript
