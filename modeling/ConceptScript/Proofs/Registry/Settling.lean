import Mathlib.Data.List.Perm.Subperm
import Mathlib.Logic.Relation
import ConceptScript.Proofs.Registry.Inheritance

namespace ConceptScript.Registry

open Relation (TransGen ReflTransGen)

/-- All that one list knows the other one knows too. -/
def Keeps (known known' : Arities) : Prop :=
  ∀ name a, known.lookup name = some a → known'.lookup name = some a

theorem Keeps.refl (known : Arities) : Keeps known known := fun _ _ h => h

theorem Keeps.trans {known known' known'' : Arities} (h : Keeps known known')
    (h' : Keeps known' known'') : Keeps known known'' :=
  fun name a ha => h' name a (h name a ha)

theorem lookup_cons_of_ne {known : Arities} {name other : String} (h : name ≠ other)
    (a : Option Nat) : ((other, a) :: known : Arities).lookup name = known.lookup name := by
  rw [List.lookup_cons, beq_eq_false_iff_ne.mpr h]

theorem keeps_cons {known : Arities} {name : String} (h : known.lookup name = none)
    (a : Option Nat) : Keeps known ((name, a) :: known) := by
  intro other b hb
  rw [lookup_cons_of_ne, hb]
  rintro rfl
  simp [h] at hb

/-- What a key member takes, once the arity of its target is known. -/
def partArity? (known : Arities) (m : Member) : Option (Option Nat) :=
  match m.kind with
  | .identifier => some (some 1)
  | .text => some (some 1)
  | .reference (.concept name) => known.lookup name
  | .reference .any => some none
  | .list _ => some none

theorem partArity?_isSome_iff {known : Arities} {m : Member} : (partArity? known m).isSome = true ↔
    ∀ name, m.kind = .reference (.concept name) → (known.lookup name).isSome = true := by
  unfold partArity?
  split
  case h_3 name hm => simp [hm]
  all_goals
    next hm => simp [hm]

theorem Keeps.partArity? {known known' : Arities} (h : Keeps known known') {m : Member}
    {a : Option Nat} (ha : partArity? known m = some a) : partArity? known' m = some a := by
  unfold Registry.partArity? at ha ⊢
  split at ha
  case h_3 name _ => exact h name a ha
  all_goals exact ha

theorem mapM_eq_some_of_imp {α β : Type} {f g : α → Option β} (h : ∀ a b, f a = some b → g a = some b)
    {as : List α} {bs : List β} (hf : as.mapM f = some bs) : as.mapM g = some bs := by
  induction as generalizing bs with
  | nil => exact hf
  | cons a as ih =>
    simp only [List.mapM_cons, Option.bind_eq_bind, Option.bind_eq_some_iff] at hf ⊢
    obtain ⟨b, hb, bs, hbs, hr⟩ := hf
    exact ⟨b, h a b hb, bs, ih hbs, hr⟩

theorem mapM_isSome_iff {α β : Type} {f : α → Option β} {as : List α} :
    (as.mapM f).isSome = true ↔ ∀ a ∈ as, (f a).isSome = true := by
  induction as with
  | nil => simp
  | cons a as ih =>
    rw [List.forall_mem_cons, ← ih, List.mapM_cons]
    cases f a <;> cases as.mapM f <;> simp

section Sums

variable {ε : Type} (addition : Addition ε)

/-- What key members add up to with a number to start from, by what is known of their targets. -/
def Adds (known : Arities) (start : Option Nat) (ms : List Member) (a : Except ε (Option Nat)) :
    Prop :=
  ∃ parts, ms.mapM (partArity? known) = some parts ∧ parts.foldlM (addArity addition) start = a

/-- The arity of a shape, by what is known of the targets of its key. -/
def Follows (known : Arities) (s : Shape) (a : Option Nat) : Prop :=
  if s.isInterface then a = none else Adds addition known (some 0) s.keys (.ok a)

variable {addition} {known known' : Arities} {start : Option Nat}

theorem Adds.mono {ms : List Member} {a : Except ε (Option Nat)}
    (h : Adds addition known start ms a) (hkeeps : Keeps known known') :
    Adds addition known' start ms a := by
  obtain ⟨parts, hparts, hsum⟩ := h
  exact ⟨parts, mapM_eq_some_of_imp (fun _ _ => hkeeps.partArity?) hparts, hsum⟩

theorem Adds.unique {ms : List Member} {a b : Except ε (Option Nat)}
    (ha : Adds addition known start ms a) (hb : Adds addition known start ms b) : a = b := by
  obtain ⟨parts, hparts, rfl⟩ := ha
  obtain ⟨parts', hparts', rfl⟩ := hb
  rw [Option.some.inj (hparts.symm.trans hparts')]

theorem Adds.concat {ms : List Member} {m : Member} {total part : Option Nat}
    (h : Adds addition known start ms (.ok total)) (hm : partArity? known m = some part) :
    Adds addition known start (ms ++ [m]) (addArity addition total part) := by
  obtain ⟨parts, hparts, hsum⟩ := h
  refine ⟨parts ++ [part], ?_, ?_⟩
  · simp [List.mapM_append, hparts, hm]
  · rw [List.foldlM_append, hsum, ok_bind]
    exact bind_pure _

theorem adds_nil {a : Option Nat} : Adds addition known start [] (.ok a) ↔ start = a := by
  constructor
  · rintro ⟨parts, hparts, hsum⟩
    obtain rfl : [] = parts := by simpa using hparts
    exact Except.ok.inj hsum
  · rintro rfl
    exact ⟨[], rfl, rfl⟩

theorem adds_cons {m : Member} {ms : List Member} {a : Option Nat} :
    Adds addition known start (m :: ms) (.ok a) ↔ ∃ part total, partArity? known m = some part ∧
      addArity addition start part = .ok total ∧ Adds addition known total ms (.ok a) := by
  constructor
  · rintro ⟨parts, hparts, hsum⟩
    simp only [List.mapM_cons, Option.bind_eq_bind, Option.bind_eq_some_iff] at hparts
    obtain ⟨part, hpart, parts', hparts', hcons⟩ := hparts
    obtain rfl := Option.some.inj hcons
    obtain ⟨total, htotal, hsum⟩ := bind_eq_ok.mp hsum
    exact ⟨part, total, hpart, htotal, parts', hparts', hsum⟩
  · rintro ⟨part, total, hpart, htotal, parts, hparts, hsum⟩
    refine ⟨part :: parts, by simp [hpart, hparts], ?_⟩
    rw [List.foldlM_cons, htotal, ok_bind, hsum]

theorem Adds.of_append {ms rest : List Member} {a : Option Nat}
    (h : Adds addition known start (ms ++ rest) (.ok a)) :
    ∃ b, Adds addition known start ms (.ok b) := by
  induction ms generalizing start with
  | nil => exact ⟨start, adds_nil.mpr rfl⟩
  | cons m ms ih =>
    obtain ⟨part, total, hpart, htotal, hrest⟩ := adds_cons.mp h
    obtain ⟨b, hb⟩ := ih hrest
    exact ⟨b, adds_cons.mpr ⟨part, total, hpart, htotal, hb⟩⟩

theorem Adds.lookup_isSome {ms : List Member} {a : Except ε (Option Nat)}
    (h : Adds addition known start ms a) {m : Member} (hm : m ∈ ms) {name : String}
    (hkind : m.kind = .reference (.concept name)) : (known.lookup name).isSome = true := by
  obtain ⟨parts, hparts, _⟩ := h
  exact partArity?_isSome_iff.mp (mapM_isSome_iff.mp (by rw [hparts]; rfl) m hm) name hkind

theorem Follows.mono {s : Shape} {a : Option Nat} (h : Follows addition known s a)
    (hkeeps : Keeps known known') : Follows addition known' s a := by
  unfold Follows at h ⊢
  split
  · next hi => rwa [if_pos hi] at h
  · next hi =>
    rw [if_neg hi] at h
    exact h.mono hkeeps

theorem Follows.unique {s : Shape} {a b : Option Nat} (ha : Follows addition known s a)
    (hb : Follows addition known s b) : a = b := by
  unfold Follows at ha hb
  split at ha
  · next hi =>
    rw [if_pos hi] at hb
    rw [ha, hb]
  · next hi =>
    rw [if_neg hi] at hb
    exact Except.ok.inj (ha.unique hb)

theorem Follows.adds {s : Shape} {a : Option Nat} (h : Follows addition known s a)
    (hi : s.isInterface = false) : Adds addition known (some 0) s.keys (.ok a) := by
  rwa [Follows, if_neg (by simp [hi])] at h

end Sums

/-- A shape that is no interface, and one that a member of its key refers to. -/
def KeyLeads (shapes : List Shape) (s t : Shape) : Prop :=
  t ∈ shapes ∧ s.isInterface = false ∧ ∃ m ∈ s.keys, m.kind = .reference (.concept t.name)

section Settled

variable {ε : Type} (addition : Addition ε) (shapes : List Shape)

/-- The arities of shapes, found one after the other, the last of them first in the list, each from
those that were found before. -/
inductive Settled : Arities → Prop
  | nil : Settled []
  | cons {known : Arities} {s : Shape} {a : Option Nat} :
    Settled known → s ∈ shapes → known.lookup s.name = none → Follows addition known s a →
    Settled ((s.name, a) :: known)

variable {addition shapes} {known : Arities}

namespace Settled

/-- What is settled was settled from less. -/
theorem of_lookup (h : Settled addition shapes known) {name : String} {a : Option Nat}
    (hl : known.lookup name = some a) :
    ∃ s ∈ shapes, s.name = name ∧ ∃ before, Settled addition shapes before ∧
      before.length < known.length ∧ Keeps before known ∧ before.lookup name = none ∧
      Follows addition before s a := by
  induction h with
  | nil => simp at hl
  | @cons known s b hknown hs hnew hb ih =>
    have hkeeps := keeps_cons hnew b
    by_cases hname : name = s.name
    · subst hname
      obtain rfl : b = a := by simpa [List.lookup_cons] using hl
      exact ⟨s, hs, rfl, known, hknown, Nat.lt_succ_self _, hkeeps, hnew, hb⟩
    · rw [lookup_cons_of_ne hname] at hl
      obtain ⟨s', hs', hn, before, hbefore, hlen, hkeeps', hnone, ha⟩ := ih hl
      exact ⟨s', hs', hn, before, hbefore, Nat.lt_succ_of_lt hlen, hkeeps'.trans hkeeps, hnone, ha⟩

theorem follows_of_lookup (h : Settled addition shapes known) {name : String} {a : Option Nat}
    (hl : known.lookup name = some a) :
    ∃ s ∈ shapes, s.name = name ∧ Follows addition known s a := by
  obtain ⟨s, hs, hn, before, _, _, hkeeps, _, ha⟩ := h.of_lookup hl
  exact ⟨s, hs, hn, ha.mono hkeeps⟩

/-- What is settled in some order is settled in every order that leaves nothing out. -/
theorem keeps {shapes' : List Shape} {known' : Arities} (h : Settled addition shapes known)
    (h' : Settled addition shapes' known')
    (hall : ∀ s ∈ shapes', (known'.lookup s.name).isSome = true) (hsub : shapes ⊆ shapes')
    (hnames : (shapes'.map Shape.name).Nodup) : Keeps known known' := by
  induction h with
  | nil =>
    intro name a hl
    simp at hl
  | @cons known s b _ hs hnew hb ih =>
    intro name a hl
    by_cases hname : name = s.name
    · subst hname
      obtain rfl : b = a := by simpa [List.lookup_cons] using hl
      obtain ⟨a, ha⟩ := Option.isSome_iff_exists.mp (hall s (hsub hs))
      -- One shape has the name, and the list settles it from itself.
      obtain ⟨s', hs', hn, ha'⟩ := h'.follows_of_lookup ha
      obtain rfl := List.inj_on_of_nodup_map hnames hs' (hsub hs) hn
      rw [ha, ha'.unique (hb.mono ih)]
    · rw [lookup_cons_of_ne hname] at hl
      exact ih name a hl

section Cycles

variable (hnames : (shapes.map Shape.name).Nodup)
include hnames

theorem lookup_of_keyLeads {s t : Shape} (hs : s ∈ shapes) {u : Shape} (hu : u ∈ shapes)
    (hname : u.name = s.name) {a : Option Nat} (ha : Follows addition known u a)
    (hst : KeyLeads shapes s t) : (known.lookup t.name).isSome = true := by
  obtain rfl := List.inj_on_of_nodup_map hnames hu hs hname
  obtain ⟨_, hi, m, hm, hkind⟩ := hst
  exact (ha.adds hi).lookup_isSome hm hkind

theorem lookup_of_path (h : Settled addition shapes known) {s t : Shape} (hs : s ∈ shapes)
    (hl : (known.lookup s.name).isSome = true) (hst : ReflTransGen (KeyLeads shapes) s t) :
    t ∈ shapes ∧ (known.lookup t.name).isSome = true := by
  induction hst with
  | refl => exact ⟨hs, hl⟩
  | tail _ hstep ih =>
    obtain ⟨a, ha⟩ := Option.isSome_iff_exists.mp ih.2
    obtain ⟨u, hu, hn, hfrom⟩ := h.follows_of_lookup ha
    exact ⟨hstep.1, lookup_of_keyLeads hnames ih.1 hu hn hfrom hstep⟩

theorem acyclic (h : Settled addition shapes known) {s : Shape} (hs : s ∈ shapes)
    (hl : (known.lookup s.name).isSome = true) : ¬TransGen (KeyLeads shapes) s s := by
  induction h with
  | nil => simp at hl
  | @cons known u a hknown hu hnew hfrom ih =>
    by_cases hn : s.name = u.name
    · -- The type was settled from others, and these lead to settled ones only.
      intro hcycle
      obtain ⟨t, hst, hts⟩ := Relation.TransGen.head'_iff.mp hcycle
      have ht := lookup_of_keyLeads hnames hs hu hn.symm hfrom hst
      have hback := (hknown.lookup_of_path hnames hst.1 ht hts).2
      simp [hn, hnew] at hback
    · rw [lookup_cons_of_ne hn] at hl
      exact ih hl

end Cycles

end Settled

end Settled

/-- Shapes with names of their own, among them the targets of all keys. -/
structure SelfContained (shapes : List Shape) : Prop where
  names_nodup : (shapes.map Shape.name).Nodup
  target_mem : ∀ s ∈ shapes, ∀ m ∈ s.keys, ∀ name, m.kind = .reference (.concept name) →
    name ∈ shapes.map Shape.name

section Search

variable {ε : Type} (addition : Addition ε) (shapes : List Shape)

/-- What a search adds to what is known: shapes of the pool, each settled from what came before. -/
structure Widens (pool : List Shape) (known known' : Arities) : Prop where
  settled : Settled addition shapes known'
  keeps : Keeps known known'
  mem_or : ∀ name, (known'.lookup name).isSome = true →
    (known.lookup name).isSome = true ∨ name ∈ pool.map Shape.name

/-- Why a search fails: the keys lead back to where they come from, or the first members of a key
have no sum. -/
def Fails (e : ε) : Prop :=
  (∃ s ∈ shapes, TransGen (KeyLeads shapes) s s) ∨
    ∃ s ∈ shapes, s.isInterface = false ∧ ∃ known ms rest, Settled addition shapes known ∧
      s.keys = ms ++ rest ∧ Adds addition known (some 0) ms (.error e)

variable {addition shapes} {pool : List Shape} {known known' : Arities}

theorem Widens.refl (h : Settled addition shapes known) : Widens addition shapes pool known known :=
  ⟨h, .refl known, fun _ => .inl⟩

theorem Widens.trans {known'' : Arities} (h : Widens addition shapes pool known known')
    (h' : Widens addition shapes pool known' known'') :
    Widens addition shapes pool known known'' := by
  refine ⟨h'.settled, h.keeps.trans h'.keeps, fun name hname => ?_⟩
  rcases h'.mem_or name hname with hname | hname
  · exact h.mem_or name hname
  · exact .inr hname

/-- A shape is settled from what a search in the rest of the pool found. -/
theorem Widens.cons {s : Shape} (hs : s ∈ shapes) (hmem : s ∈ pool)
    (hnew : known.lookup s.name = none)
    (h : Widens addition shapes (without Shape.name pool s.name) known known') {a : Option Nat}
    (ha : Follows addition known' s a) :
    Widens addition shapes pool known ((s.name, a) :: known') := by
  have hnew' : known'.lookup s.name = none := by
    rw [← Option.not_isSome_iff_eq_none]
    intro hl
    rcases h.mem_or s.name hl with hl | hl
    · simp [hnew] at hl
    · obtain ⟨t, ht, hname⟩ := List.mem_map.mp hl
      simp [without, hname] at ht
  refine ⟨h.settled.cons hs hnew' ha, h.keeps.trans (keeps_cons hnew' a), fun name hname => ?_⟩
  by_cases hn : name = s.name
  · exact .inr (hn ▸ List.mem_map_of_mem hmem)
  · rw [lookup_cons_of_ne hn] at hname
    exact (h.mem_or name hname).imp_right
      (List.map_subset _ (without_sublist Shape.name pool s.name).subset ·)

theorem sumKeys_ends {path : List String} {s : Shape} (hs : s ∈ shapes)
    (hi : s.isInterface = false)
    (harity : ∀ known, Settled addition shapes known → ∀ m ∈ s.keys, ∀ name,
      m.kind = .reference (.concept name) →
        Ends (fun x => Widens addition shapes pool known x.2 ∧ x.2.lookup name = some x.1)
          (Fails addition shapes) (arityOf addition path pool known name))
    {done ms : List Member} (hkeys : s.keys = done ++ ms) {total : Option Nat}
    (hknown : Settled addition shapes known)
    (hsum : Adds addition known (some 0) done (.ok total)) :
    Ends (fun x => Widens addition shapes pool known x.2 ∧
        Adds addition x.2 (some 0) s.keys (.ok x.1))
      (Fails addition shapes) (sumKeys addition path pool known total ms) := by
  induction ms generalizing done known total with
  | nil =>
    rw [sumKeys]
    rw [List.append_nil] at hkeys
    exact ⟨.refl hknown, hkeys ▸ hsum⟩
  | cons m ms ih =>
    have hm : m ∈ s.keys := by simp [hkeys]
    rw [sumKeys]
    refine Ends.bind (P := fun x : Option Nat × Arities => Widens addition shapes pool known x.2 ∧
      partArity? x.2 m = some x.1) ?_ ?_ (fun _ => id)
    · cases hkind : m.kind with
      | identifier => exact ⟨.refl hknown, by rw [partArity?, hkind]⟩
      | text => exact ⟨.refl hknown, by rw [partArity?, hkind]⟩
      | list target => exact ⟨.refl hknown, by rw [partArity?, hkind]⟩
      | reference target =>
        cases target with
        | any => exact ⟨.refl hknown, by rw [partArity?, hkind]⟩
        | concept name =>
          have hpart (x : Option Nat × Arities) : partArity? x.2 m = x.2.lookup name := by
            rw [partArity?, hkind]
          simp only [hpart]
          exact harity known hknown m hm name hkind
    · rintro ⟨part, known'⟩ ⟨hwidens, hpart⟩
      have hadds := (hsum.mono hwidens.keeps).concat hpart
      have hkeys' : s.keys = done ++ [m] ++ ms := by simp [hkeys]
      dsimp only at hwidens hadds ⊢
      cases hadd : addArity addition total part with
      | error e =>
        rw [hadd] at hadds
        rw [error_bind]
        exact .inr ⟨s, hs, hi, known', _, ms, hwidens.settled, hkeys', hadds⟩
      | ok total' =>
        rw [hadd] at hadds
        rw [ok_bind]
        have hrest := ih hkeys' hwidens.settled hadds
        exact hrest.imp (fun _ hx => ⟨hwidens.trans hx.1, hx.2⟩) (fun _ => id)

/-- The arity of a type is found, or else the search has come upon a cycle or a sum that there is
not. Whatever is not in the pool leads to the type. -/
theorem arityOf_ends (hcontained : SelfContained shapes) (path : List String) (hpool : pool.Sublist shapes)
    (hknown : Settled addition shapes known) {s : Shape} (hs : s ∈ shapes)
    (hreach : ∀ t ∈ shapes, t ∈ pool ∨ TransGen (KeyLeads shapes) t s) :
    Ends (fun x => Widens addition shapes pool known x.2 ∧ x.2.lookup s.name = some x.1)
      (Fails addition shapes) (arityOf addition path pool known s.name) := by
  induction hn : pool.length using Nat.strongRecOn generalizing path pool known s with
  | ind _ ih =>
    rw [arityOf]
    cases hl : known.lookup s.name with
    | some a => exact ⟨.refl hknown, hl⟩
    | none =>
      dsimp only
      split
      · next hf =>
        -- The type is on the path, so it leads to itself.
        refine .inl ⟨s, hs, (hreach s hs).resolve_left fun hmem => ?_⟩
        simpa using List.find?_eq_none.mp hf s hmem
      · next t hf =>
        have hmem := List.mem_of_find?_eq_some hf
        obtain rfl := List.inj_on_of_nodup_map hcontained.names_nodup (hpool.subset hmem) hs
          (by simpa using List.find?_some hf)
        have hless := length_without_lt hf
        split
        · next hi =>
          exact ⟨Widens.cons hs hmem hl (.refl hknown) (by rw [Follows, if_pos hi]), by simp⟩
        · next hi =>
          have hi : t.isInterface = false := by simpa using hi
          have hpool' := (without_sublist Shape.name pool t.name).trans hpool
          refine (sumKeys_ends hs hi ?_ (List.nil_append _).symm hknown
            ⟨[], rfl, rfl⟩).bind ?_ (fun _ => id)
          · intro known hknown m hm name hkind
            obtain ⟨u, hu, rfl⟩ := List.mem_map.mp (hcontained.target_mem t hs m hm name hkind)
            refine ih _ (hn ▸ hless) _ hpool' hknown hu (fun v hv => ?_) rfl
            have hstep : KeyLeads shapes t u := ⟨hu, hi, m, hm, hkind⟩
            rcases hreach v hv with hv' | hv'
            · by_cases hname : v.name = t.name
              · obtain rfl := List.inj_on_of_nodup_map hcontained.names_nodup hv hs hname
                exact .inr (.single hstep)
              · exact .inl (List.mem_filter.mpr ⟨hv', by simpa using hname⟩)
            · exact .inr (hv'.tail hstep)
          · rintro ⟨a, known'⟩ ⟨hwidens, hadds⟩
            refine ⟨Widens.cons hs hmem hl hwidens ?_, by simp⟩
            rw [Follows, if_neg (by simp [hi])]
            exact hadds

theorem foldlM_arityOf_ends (hcontained : SelfContained shapes) {ss : List Shape} (hss : ss ⊆ shapes)
    (hknown : Settled addition shapes known) :
    Ends (fun known' => Settled addition shapes known' ∧ Keeps known known' ∧
        ∀ s ∈ ss, (known'.lookup s.name).isSome = true)
      (Fails addition shapes) (ss.foldlM (fun known s => do
        let (_, known) ← arityOf addition [] shapes known s.name
        return known) known) := by
  induction ss generalizing known with
  | nil => exact ⟨hknown, .refl known, by simp⟩
  | cons s ss ih =>
    rw [List.cons_subset] at hss
    have hs := arityOf_ends hcontained [] (List.Sublist.refl shapes) hknown hss.1
      (fun t ht => .inl ht)
    rw [List.foldlM_cons, bind_assoc]
    refine hs.bind ?_ (fun _ => id)
    rintro ⟨a, known'⟩ ⟨hwidens, hl⟩
    refine (ih hss.2 hwidens.settled).imp ?_ (fun _ => id)
    rintro known'' ⟨hsettled, hkeeps, hall⟩
    refine ⟨hsettled, hwidens.keeps.trans hkeeps, List.forall_mem_cons.mpr ⟨?_, hall⟩⟩
    rw [hkeeps s.name a hl]
    rfl

variable (addition) in
theorem aritiesOf_ends (hcontained : SelfContained shapes) :
    Ends (fun known => Settled addition shapes known ∧
        ∀ s ∈ shapes, (known.lookup s.name).isSome = true)
      (Fails addition shapes) (aritiesOf addition shapes) :=
  (foldlM_arityOf_ends hcontained (List.Subset.refl _) .nil).imp (fun _ h => ⟨h.1, h.2.2⟩)
    (fun _ => id)

theorem settled_of_aritiesOf (hcontained : SelfContained shapes) (h : aritiesOf addition shapes = .ok known) :
    Settled addition shapes known ∧ ∀ s ∈ shapes, (known.lookup s.name).isSome = true := by
  have hends := aritiesOf_ends addition hcontained
  rwa [h] at hends

end Search

theorem adds_wrapping_ne_error {known : Arities} {start : Option Nat} {ms : List Member}
    {f : Fault} : ¬Adds .wrapping known start ms (.error f) := by
  have hok (parts : List (Option Nat)) (total : Option Nat) :
      ∃ a, parts.foldlM (addArity .wrapping) total = .ok a := by
    induction parts generalizing total with
    | nil => exact ⟨total, rfl⟩
    | cons part parts ih =>
      obtain ⟨sum, hsum⟩ : ∃ sum, addArity .wrapping total part = .ok sum := by
        cases total <;> cases part <;> exact ⟨_, rfl⟩
      rw [List.foldlM_cons, hsum]
      exact ih sum
  rintro ⟨parts, _, h⟩
  obtain ⟨a, ha⟩ := hok parts start
  simp [ha] at h

/-- Where sums start again at zero, only a cycle keeps arities from being found. -/
theorem exists_aritiesOf_wrapping {shapes : List Shape} (hcontained : SelfContained shapes) :
    (∃ known, aritiesOf .wrapping shapes = .ok known) ↔
      ∀ s ∈ shapes, ¬TransGen (KeyLeads shapes) s s := by
  constructor
  · rintro ⟨known, h⟩ s hs
    obtain ⟨hsettled, hall⟩ := settled_of_aritiesOf hcontained h
    exact hsettled.acyclic hcontained.names_nodup hs (hall s hs)
  · intro hacyclic
    have hends := aritiesOf_ends .wrapping hcontained
    cases h : aritiesOf .wrapping shapes with
    | ok known => exact ⟨known, rfl⟩
    | error f =>
      rw [h] at hends
      rcases hends with ⟨s, hs, hcycle⟩ | ⟨_, _, _, _, _, _, _, _, hadds⟩
      · exact absurd hcycle (hacyclic s hs)
      · exact absurd hadds adds_wrapping_ne_error

theorem lookup_aritiesOf_perm {ε : Type} {addition : Addition ε} {shapes shapes' : List Shape}
    (hcontained : SelfContained shapes) (hcontained' : SelfContained shapes') (h : shapes.Perm shapes')
    {known known' : Arities} (hk : aritiesOf addition shapes = .ok known)
    (hk' : aritiesOf addition shapes' = .ok known') (name : String) :
    known.lookup name = known'.lookup name := by
  obtain ⟨hs, hall⟩ := settled_of_aritiesOf hcontained hk
  obtain ⟨hs', hall'⟩ := settled_of_aritiesOf hcontained' hk'
  ext a
  constructor
  · exact hs.keeps hs' hall' h.subset hcontained'.names_nodup name a
  · exact hs'.keeps hs hall h.symm.subset hcontained.names_nodup name a

theorem checkTargets_eq_ok_iff {shapes : List Shape} {ps : List (Shape × Member)} {u : Unit} :
    checkTargets shapes ps = .ok u ↔ ∀ p ∈ ps, danglingTarget? shapes p.2 = none := by
  induction ps with
  | nil => simp [checkTargets]
  | cons p ps ih =>
    rw [List.forall_mem_cons, checkTargets]
    cases hd : danglingTarget? shapes p.2 with
    | none => simpa using ih
    | some target => simp

theorem selfContained_of_shapesOf {declared : List Declaration} {shapes : List Shape}
    (h : shapesOf declared = .ok shapes) : SelfContained shapes := by
  obtain ⟨hd, hs, ht⟩ := shapesOf_eq_ok.mp h
  constructor
  · have hnames : declared.map Declaration.name = shapes.map Shape.name :=
      map_eq_map_of_forall₂ hs fun d s hds => (inherits_of_inherit hds).name_eq.symm
    exact hnames ▸ (checkDeclarations_eq_ok_iff.mp hd).1
  · intro s hs m hm name hkind
    have hnone := checkTargets_eq_ok_iff.mp ht (s, m)
      (List.mem_flatMap.mpr ⟨s, hs, List.mem_map_of_mem (List.mem_filter.mp hm).1⟩)
    simpa [danglingTarget?, hkind, MemberKind.target?] using hnone

theorem map_toShape_complete (shapes : List Shape) (known : Arities) (ss : List Shape) :
    (ss.map (complete shapes known)).map ConceptType.toShape = ss := by
  rw [List.map_map]
  exact List.map_id ss

/-- The arities of the types of a registry are settled. -/
theorem settled_of_buildWith {ε : Type} {addition : Addition ε} {declared : List Declaration}
    {r : Registry} (h : buildWith addition declared = .ok r) :
    ∃ known, Settled addition (r.types.map ConceptType.toShape) known ∧
      ∀ t ∈ r.types, known.lookup t.name = some t.arity? := by
  obtain ⟨shapes, known, hs, hk, rfl⟩ := buildWith_eq_ok.mp h
  obtain ⟨hsettled, hall⟩ := settled_of_aritiesOf (selfContained_of_shapesOf hs) hk
  rw [map_toShape_complete]
  refine ⟨known, hsettled, ?_⟩
  intro t ht
  obtain ⟨s, hs, rfl⟩ := List.mem_map.mp ht
  obtain ⟨a, ha⟩ := Option.isSome_iff_exists.mp (hall s hs)
  change known.lookup s.name = some (known.lookup s.name).join
  rw [ha]
  rfl

end ConceptScript.Registry
