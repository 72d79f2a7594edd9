import Mathlib.Data.List.Nodup
import ConceptScript.Proofs.Buffer.Discipline

namespace ConceptScript

/-- The texts of a place in the order they stand in. -/
def Discipline.arrange {α : Type} : Discipline → List α → List α
  | .single, xs => xs.take 1
  | .appendable, xs => xs
  | .reverse, xs => xs.reverse

namespace Buffer

/-- Something that is written, or a place for more. -/
inductive Piece (P : Type) where
  | text (s : String)
  | place (p : P)
  deriving DecidableEq

variable {P : Type}

/-- A text with something in each of its places. -/
def fill (f : P → String) : List (Piece P) → String
  | [] => ""
  | .text s :: ps => s ++ fill f ps
  | .place p :: ps => f p ++ fill f ps

def places : List (Piece P) → List P
  | [] => []
  | .text _ :: ps => places ps
  | .place p :: ps => p :: places ps

theorem fill_append (f : P → String) (ps qs : List (Piece P)) :
    fill f (ps ++ qs) = fill f ps ++ fill f qs := by
  induction ps with
  | nil => simp [fill]
  | cons x ps ih => cases x <;> simp [fill, ih, String.append_assoc]

theorem fill_congr {f g : P → String} {ps : List (Piece P)}
    (h : ∀ p, .place p ∈ ps → f p = g p) : fill f ps = fill g ps := by
  induction ps with
  | nil => rfl
  | cons x ps ih =>
    have hrest := ih fun p hp => h p (List.mem_cons_of_mem x hp)
    cases x with
    | text s => rw [fill, fill, hrest]
    | place p => rw [fill, fill, hrest, h p List.mem_cons_self]

theorem places_append (ps qs : List (Piece P)) : places (ps ++ qs) = places ps ++ places qs := by
  induction ps with
  | nil => rfl
  | cons x ps ih => cases x <;> simp [places, ih]

theorem mem_places {p : P} {ps : List (Piece P)} : p ∈ places ps ↔ .place p ∈ ps := by
  induction ps with
  | nil => simp [places]
  | cons x ps ih => cases x <;> simp [places, ih]

structure Line (P : Type) where
  place : P
  pieces : List (Piece P)

def Line.leaves (discipline : P → Discipline) (l : Line P) : List (Piece P) :=
  match discipline l.place with
  | .single => l.pieces
  | .appendable => l.pieces ++ [.place l.place]
  | .reverse => .place l.place :: l.pieces

/-- The place is in the text, or one of the lines opens it. -/
def Opened (start : List (Piece P)) (ls : List (Line P)) (p : P) : Prop :=
  .place p ∈ start ∨ ∃ l ∈ ls, .place p ∈ l.pieces

/-- A line goes to a place that was opened, and opens new ones. Where it takes the place for good,
it opens none. -/
structure Fits (discipline : P → Discipline) (start : List (Piece P)) (ls : List (Line P))
    (l : Line P) : Prop where
  opened : Opened start ls l.place
  fresh : ∀ p, .place p ∈ l.pieces → ¬Opened start ls p
  nodup : (places l.pieces).Nodup
  leaf : discipline l.place = .single → places l.pieces = []

/-- Each line fits behind those before it. -/
def Fitting (discipline : P → Discipline) (start : List (Piece P)) (ls : List (Line P)) : Prop :=
  ∀ before l after, ls = before ++ l :: after → Fits discipline start before l

section Fitting

variable {discipline : P → Discipline} {start : List (Piece P)} {ls : List (Line P)} {l : Line P}

theorem Line.place_mem_leaves {p : P} : .place p ∈ l.leaves discipline ↔
    .place p ∈ l.pieces ∨ discipline l.place ≠ .single ∧ p = l.place := by
  unfold leaves
  split <;> simp_all [or_comm]

theorem Line.places_leaves_perm (hd : discipline l.place ≠ .single) :
    (places (l.leaves discipline)).Perm (places l.pieces ++ [l.place]) := by
  unfold leaves
  split
  · next h => exact absurd h hd
  · simp [places_append, places]
  · exact List.perm_append_singleton _ _ |>.symm

theorem Opened.mono {p : P} (h : Opened start ls p) (more : List (Line P)) :
    Opened start (ls ++ more) p := by
  rcases h with h | ⟨l, hl, hp⟩
  · exact .inl h
  · exact .inr ⟨l, List.mem_append_left _ hl, hp⟩

theorem opened_concat {p : P} :
    Opened start (ls ++ [l]) p ↔ Opened start ls p ∨ .place p ∈ l.pieces := by
  simp [Opened, or_and_right, exists_or, or_assoc]

theorem Fitting.of_concat (h : Fitting discipline start (ls ++ [l])) :
    Fitting discipline start ls ∧ Fits discipline start ls l := by
  refine ⟨?_, h ls l [] rfl⟩
  rintro before l' after rfl
  exact h before l' (after ++ [l]) (by simp)

theorem Fitting.opened (h : Fitting discipline start ls) (hl : l ∈ ls) :
    Opened start ls l.place := by
  obtain ⟨before, after, rfl⟩ := List.append_of_mem hl
  exact (h before l after rfl).opened.mono _

end Fitting

section Growth

variable [DecidableEq P] (discipline : P → Discipline)

namespace Line

def apply (l : Line P) (ps : List (Piece P)) : List (Piece P) :=
  ps.flatMap fun x => if x = .place l.place then l.leaves discipline else [x]

theorem place_mem_apply {l : Line P} {p : P} {ps : List (Piece P)} :
    .place p ∈ l.apply discipline ps ↔
      .place p ∈ ps ∧ p ≠ l.place ∨ .place l.place ∈ ps ∧ .place p ∈ l.leaves discipline := by
  rw [apply, List.mem_flatMap]
  constructor
  · rintro ⟨x, hx, hp⟩
    split at hp
    · next he => exact .inr ⟨he ▸ hx, hp⟩
    · next hne =>
      obtain rfl := List.mem_singleton.mp hp
      exact .inl ⟨hx, fun he => hne (he ▸ rfl)⟩
  · rintro (⟨hp, hne⟩ | ⟨hl, hp⟩)
    · exact ⟨_, hp, by simp [hne]⟩
    · exact ⟨_, hl, by simpa using hp⟩

theorem apply_of_not_mem {l : Line P} {ps : List (Piece P)} (h : .place l.place ∉ ps) :
    l.apply discipline ps = ps := by
  induction ps with
  | nil => rfl
  | cons x ps ih =>
    rw [List.mem_cons, not_or] at h
    rw [apply, List.flatMap_cons, if_neg (Ne.symm h.1), ← apply, ih h.2, List.singleton_append]

theorem exists_apply {l : Line P} {ps : List (Piece P)} (hnodup : (places ps).Nodup)
    (h : .place l.place ∈ ps) :
    ∃ xs ys, ps = xs ++ .place l.place :: ys ∧ .place l.place ∉ xs ∧ .place l.place ∉ ys ∧
      l.apply discipline ps = xs ++ l.leaves discipline ++ ys := by
  obtain ⟨xs, ys, rfl⟩ := List.append_of_mem h
  rw [places_append, places, List.nodup_middle, List.nodup_cons, List.mem_append, not_or,
    mem_places, mem_places] at hnodup
  obtain ⟨⟨hx, hy⟩, _⟩ := hnodup
  refine ⟨xs, ys, rfl, hx, hy, ?_⟩
  have hxs := apply_of_not_mem discipline hx
  have hys := apply_of_not_mem discipline hy
  rw [apply] at hxs hys
  rw [apply, List.flatMap_append, List.flatMap_cons, if_pos rfl, hxs, hys, List.append_assoc]

theorem fill_apply (f : P → String) (l : Line P) (ps : List (Piece P)) :
    fill f (l.apply discipline ps) =
      fill (fun p => if p = l.place then fill f (l.leaves discipline) else f p) ps := by
  induction ps with
  | nil => rfl
  | cons x ps ih =>
    rw [apply, List.flatMap_cons, fill_append, ← apply, ih]
    cases x with
    | text s => simp [fill]
    | place p =>
      by_cases hp : p = l.place
      · simp [fill, hp]
      · simp [fill, hp]

end Line

/-- What becomes of a text when lines go to its places one after the other. -/
def grow (start : List (Piece P)) (ls : List (Line P)) : List (Piece P) :=
  ls.foldl (fun ps l => l.apply discipline ps) start

theorem grow_concat (start : List (Piece P)) (ls : List (Line P)) (l : Line P) :
    grow discipline start (ls ++ [l]) = l.apply discipline (grow discipline start ls) := by
  rw [grow, List.foldl_append]
  rfl

/-- What the lines leave at a place in the end. -/
def content : List (Line P) → P → String
  | [], _ => ""
  | l :: ls, p => if p = l.place then fill (content ls) (l.leaves discipline) else content ls p

theorem fill_grow (start : List (Piece P)) (ls : List (Line P)) :
    fill (fun _ => "") (grow discipline start ls) = fill (content discipline ls) start := by
  induction ls generalizing start with
  | nil => rfl
  | cons l ls ih => exact (ih (l.apply discipline start)).trans (l.fill_apply discipline _ start)

theorem content_append {before : List (Line P)} {p : P} (h : ∀ l ∈ before, l.place ≠ p)
    (after : List (Line P)) :
    content discipline (before ++ after) p = content discipline after p := by
  induction before with
  | nil => rfl
  | cons l before ih =>
    rw [List.cons_append, content, if_neg (h l List.mem_cons_self).symm,
      ih fun l' hl' => h l' (List.mem_cons_of_mem l hl')]

/-- The content of a place, where what the lines leave in their own places is known. -/
theorem content_eq_join (f : P → String) {ls : List (Line P)} (p : P)
    (h : ∀ before l after, ls = before ++ l :: after →
      fill (content discipline after) l.pieces = fill f l.pieces) :
    content discipline ls p = String.join ((discipline p).arrange
      ((ls.filter fun l => l.place = p).map fun l => fill f l.pieces)) := by
  induction ls with
  | nil => cases hd : discipline p <;> rfl
  | cons l ls ih =>
    have hrest := ih fun before l' after hls => h (l :: before) l' after (by rw [hls]; rfl)
    have hfirst := h [] l ls rfl
    rw [content]
    by_cases hp : p = l.place
    · subst hp
      rw [if_pos rfl, Line.leaves, List.filter_cons, if_pos (by simp), List.map_cons]
      cases hd : discipline l.place with
      | single => simp [Discipline.arrange, hfirst]
      | appendable =>
        rw [hd] at hrest
        simp [Discipline.arrange, fill_append, fill, hfirst, hrest, String.join_cons]
      | reverse =>
        rw [hd] at hrest
        simp [Discipline.arrange, fill, hfirst, hrest, String.join_append]
    · rw [if_neg hp, hrest, List.filter_cons, if_neg (by simpa using Ne.symm hp)]

variable {discipline} {start : List (Piece P)} {ls : List (Line P)} {l : Line P}

/-- A place has the lines that went there, each with what its own places have. -/
theorem Fitting.content_eq (h : Fitting discipline start ls) (p : P) :
    content discipline ls p = String.join ((discipline p).arrange
      ((ls.filter fun l => l.place = p).map fun l => fill (content discipline ls) l.pieces)) := by
  refine content_eq_join discipline _ p ?_
  rintro before l after rfl
  have hl := h before l after rfl
  refine fill_congr fun q hq => ?_
  -- A place is opened before anything goes there, so what goes there comes after the line.
  have hnew := hl.fresh q hq
  have hbefore : ∀ l' ∈ before ++ [l], l'.place ≠ q := by
    rintro l' hl' rfl
    rcases List.mem_append.mp hl' with hl' | hl'
    · have hfit : Fitting discipline start before := fun xs l'' ys hls =>
        h xs l'' (ys ++ l :: after) (by simp [hls])
      exact hnew (hfit.opened hl')
    · exact hnew (List.mem_singleton.mp hl' ▸ hl.opened)
  rw [List.append_cons, content_append discipline hbefore]

/-- The places that are open in the end: those that were opened, but for the ones that a line has
taken. -/
theorem Fitting.place_mem_grow (h : Fitting discipline start ls) (p : P) :
    .place p ∈ grow discipline start ls ↔
      Opened start ls p ∧ ¬(discipline p = .single ∧ ∃ l ∈ ls, l.place = p) := by
  induction ls using List.reverseRecOn generalizing p with
  | nil => simp [grow, Opened]
  | append_singleton ls l ih =>
    obtain ⟨hls, hl⟩ := h.of_concat
    have hbefore := ih hls
    have htaken : (∃ l' ∈ ls ++ [l], l'.place = p) ↔
        (∃ l' ∈ ls, l'.place = p) ∨ l.place = p := by
      simp [or_and_right, exists_or]
    rw [grow_concat, Line.place_mem_apply, Line.place_mem_leaves, hbefore, hbefore, opened_concat,
      htaken]
    by_cases hp : p = l.place
    · subst hp
      by_cases hd : discipline l.place = .single
      · have hleaf : .place l.place ∉ l.pieces := by simp [← mem_places, hl.leaf hd]
        simp [hd, hleaf]
      · simp [hd, hl.opened]
    · by_cases hopens : .place p ∈ l.pieces
      · -- Nothing went to a place before it was opened.
        have huntaken : ¬∃ l' ∈ ls, l'.place = p := by
          rintro ⟨l', hl', rfl⟩
          exact hl.fresh _ hopens (hls.opened hl')
        have hd : discipline l.place ≠ .single := by
          intro hd
          simp [← mem_places, hl.leaf hd] at hopens
        simp [hopens, huntaken, Ne.symm hp, hd, hl.opened]
      · simp [hopens, hp, Ne.symm hp]

theorem Fitting.places_nodup (h : Fitting discipline start ls) (hstart : (places start).Nodup) :
    (places (grow discipline start ls)).Nodup := by
  induction ls using List.reverseRecOn with
  | nil => exact hstart
  | append_singleton ls l ih =>
    obtain ⟨hls, hl⟩ := h.of_concat
    have hbefore := ih hls
    rw [grow_concat]
    by_cases hmem : .place l.place ∈ grow discipline start ls
    · have hdisjoint : ∀ p ∈ places l.pieces, p ∉ places (grow discipline start ls) := by
        intro p hp hp'
        exact hl.fresh p (mem_places.mp hp) ((hls.place_mem_grow p).mp (mem_places.mp hp')).1
      obtain ⟨xs, ys, hsplit, _, _, happly⟩ := l.exists_apply discipline hbefore hmem
      rw [hsplit, places_append, places] at hbefore hdisjoint
      rw [happly, places_append, places_append]
      by_cases hd : discipline l.place = .single
      · rw [Line.leaves, hd]
        simpa [hl.leaf hd] using (List.nodup_middle.mp hbefore).of_cons
      · have hperm : (places xs ++ places (l.leaves discipline) ++ places ys).Perm
            (places l.pieces ++ (places xs ++ l.place :: places ys)) := by
          have hleaves := ((Line.places_leaves_perm hd).append_left (places xs)).append_right
            (places ys)
          refine hleaves.trans ?_
          rw [List.append_assoc, List.append_assoc, List.singleton_append]
          exact List.perm_append_comm_assoc _ _ _
        rw [hperm.nodup_iff, List.nodup_append]
        exact ⟨hl.nodup, hbefore, fun p hp q hq he => hdisjoint p hp (he ▸ hq)⟩
    · rwa [Line.apply_of_not_mem discipline hmem]

end Growth

theorem Literal.not_mem_empty : '<' ∉ "".toList := by simp

def Literal.of (s : String) : Literal :=
  if h : '<' ∉ s.toList then ⟨s, h⟩ else ⟨"", not_mem_empty⟩

theorem Literal.text_of {s : String} (h : '<' ∉ s.toList) : (Literal.of s).text = s := by
  rw [Literal.of, dif_pos h]

def Mark.of (s : String) : Mark :=
  if h : Text.contains s "/*<" = false ∧ Text.contains s ">*/" = false then ⟨s, h.1, h.2⟩
  else ⟨"", by decide, by decide⟩

theorem not_contains_delimiter {s : String} (hopen : '<' ∉ s.toList) (hclose : '>' ∉ s.toList) :
    Text.contains s "/*<" = false ∧ Text.contains s ">*/" = false := by
  simp only [Text.contains_eq_false_iff]
  exact ⟨fun h => hopen (h.subset (by decide)), fun h => hclose (h.subset (by decide))⟩

theorem Mark.body_of {s : String} (hopen : '<' ∉ s.toList) (hclose : '>' ∉ s.toList) :
    (Mark.of s).body = s := by
  rw [Mark.of, dif_pos (not_contains_delimiter hopen hclose)]

/-- All that is written in a text are literals. -/
def Plain (ps : List (Piece P)) : Prop := ∀ s, .text s ∈ ps → '<' ∉ s.toList

@[simp] theorem plain_nil : Plain ([] : List (Piece P)) := by simp [Plain]

@[simp] theorem plain_cons_text {s : String} {ps : List (Piece P)} :
    Plain (.text s :: ps) ↔ '<' ∉ s.toList ∧ Plain ps := by
  simp [Plain]

@[simp] theorem plain_cons_place {p : P} {ps : List (Piece P)} :
    Plain (.place p :: ps) ↔ Plain ps := by
  simp [Plain]

section Draft

variable (mark : P → Mark)

def Piece.item : Piece P → Item
  | .text s => .literal (.of s)
  | .place p => .marker (mark p)

theorem render_items {ps : List (Piece P)} (h : Plain ps) :
    render (ps.map (Piece.item mark)) = fill (fun p => (mark p).text) ps := by
  induction ps with
  | nil => rfl
  | cons x ps ih =>
    cases x with
    | text s =>
      obtain ⟨hs, hps⟩ := plain_cons_text.mp h
      rw [List.map_cons, render, ih hps, Piece.item, Item.text, Literal.text_of hs, fill]
    | place p =>
      rw [List.map_cons, render, ih (plain_cons_place.mp h)]
      rfl

theorem literals_items {ps : List (Piece P)} (h : Plain ps) :
    literals (ps.map (Piece.item mark)) = fill (fun _ => "") ps := by
  induction ps with
  | nil => rfl
  | cons x ps ih =>
    cases x with
    | text s =>
      obtain ⟨hs, hps⟩ := plain_cons_text.mp h
      rw [List.map_cons, Piece.item, literals, ih hps, Literal.text_of hs, fill]
    | place p =>
      rw [List.map_cons, Piece.item, literals, ih (plain_cons_place.mp h), fill]
      simp

theorem marker_mem_items {ps : List (Piece P)} {p : P}
    (h : ∀ q, .place q ∈ ps → mark q = mark p → q = p) :
    .marker (mark p) ∈ ps.map (Piece.item mark) ↔ .place p ∈ ps := by
  rw [List.mem_map]
  constructor
  · rintro ⟨x, hx, he⟩
    cases x with
    | text s => cases he
    | place q => exact h q hx (Item.marker.inj he) ▸ hx
  · exact fun hp => ⟨_, hp, rfl⟩

theorem Draft.exists_insert_line [DecidableEq P] {discipline : P → Discipline} {d : Draft}
    {ps : List (Piece P)} {l : Line P} (hitems : d.items = ps.map (Piece.item mark))
    (hnodup : (places ps).Nodup) (hmem : .place l.place ∈ ps)
    (hmark : ∀ q, .place q ∈ ps → mark q = mark l.place → q = l.place) (keep : Bool)
    {text : String} {tag : Tag} {concept : Node}
    (hmarker : tag.marker {} concept = .ok (mark l.place).text)
    (hdiscipline : tag.discipline = discipline l.place)
    (htext : ∀ first, tag.wrapped first text = render (l.pieces.map (Piece.item mark)))
    (hfirst : discipline l.place = .single → (mark l.place).text ∉ d.used) :
    ∃ d' : Draft, (d.buffer keep).insert text tag concept = .ok (d'.buffer keep) ∧
      d'.items = (l.apply discipline ps).map (Piece.item mark) ∧
      ∀ u, u ∈ d'.used ↔ u ∈ d.used ∨ (mark l.place).text = u := by
  let i : Insertion := ⟨text, tag, concept, mark l.place, l.pieces.map (Piece.item mark),
    l.pieces.map (Piece.item mark), hmarker, htext true, htext false⟩
  have hin : .marker (mark l.place) ∈ d.items := by rwa [hitems, marker_mem_items mark hmark]
  have hinsert : d.insert i =
      d.update (mark l.place) ((l.apply discipline ps).map (Piece.item mark)) := by
    obtain ⟨xs, ys, rfl, hx, hy, happly⟩ := l.exists_apply discipline hnodup hmem
    have hxs : .marker (mark l.place) ∉ xs.map (Piece.item mark) := by
      rwa [marker_mem_items mark fun q hq => hmark q (by simp [hq])]
    have hys : .marker (mark l.place) ∉ ys.map (Piece.item mark) := by
      rwa [marker_mem_items mark fun q hq => hmark q (by simp [hq])]
    have hsplit : d.items = xs.map (Piece.item mark) ++ .marker (mark l.place) ::
        ys.map (Piece.item mark) := by
      rw [hitems]
      simp [Piece.item]
    obtain ⟨hbefore, hafter⟩ := cut_eq hsplit hxs
    have hi : i.tag.discipline = discipline l.place := hdiscipline
    have hnew : (if d.used.contains i.mark.text then i.later else i.first) =
        l.pieces.map (Piece.item mark) := ite_self _
    rw [happly, Line.leaves, insert, hi]
    rw [hnew]
    cases hd : discipline l.place with
    | single =>
      have hunused : ¬d.used.contains i.mark.text = true := by simpa using hfirst hd
      rw [if_neg hunused, replace, hsplit, flatMap_marker hxs hys]
      simp [i]
    | appendable => simp [insertBefore, i, hbefore, hafter, Piece.item]
    | reverse => simp [insertAfter, i, hbefore, hafter, Piece.item]
  obtain ⟨d', hd'⟩ : ∃ d', d.insert i = .ok d' := ⟨_, hinsert.trans (if_pos hin)⟩
  refine ⟨d', ?_, ?_, update_eq_ok (hinsert.symm.trans hd')⟩
  · rw [show (d.buffer keep).insert text tag concept = _ from insert_buffer keep d i, hd']
    rfl
  · rw [hinsert, update, if_pos hin] at hd'
    rw [← Except.ok.inj hd']

theorem plain_grow [DecidableEq P] {discipline : P → Discipline} {start : List (Piece P)}
    {ls : List (Line P)} (hstart : Plain start) (h : ∀ l ∈ ls, Plain l.pieces) :
    Plain (grow discipline start ls) := by
  induction ls generalizing start with
  | nil => exact hstart
  | cons l ls ih =>
    change Plain (grow discipline (l.apply discipline start) ls)
    refine ih ?_ fun l' hl' => h l' (List.mem_cons_of_mem l hl')
    intro s hs
    obtain ⟨x, hx, hs⟩ := List.mem_flatMap.mp hs
    split at hs
    · refine h l List.mem_cons_self s ?_
      unfold Line.leaves at hs
      split at hs <;> simpa using hs
    · exact hstart s (List.mem_singleton.mp hs ▸ hx)

/-- The draft of a text after lines have gone to its places. -/
structure Grown [DecidableEq P] (discipline : P → Discipline) (start : List (Piece P))
    (ls : List (Line P)) (d : Draft) : Prop where
  items_eq : d.items = (grow discipline start ls).map (Piece.item mark)
  used : ∀ u ∈ d.used, ∃ l ∈ ls, (mark l.place).text = u

namespace Grown

variable {mark} [DecidableEq P] {discipline : P → Discipline} {start : List (Piece P)}
  {ls : List (Line P)} {l : Line P} {d : Draft} (h : Grown mark discipline start ls d)
include h

theorem skip (hmem : .place l.place ∉ grow discipline start ls) :
    Grown mark discipline start (ls ++ [l]) d where
  items_eq := by rw [grow_concat, Line.apply_of_not_mem discipline hmem, h.items_eq]
  used u hu := by
    obtain ⟨l', hl', he⟩ := h.used u hu
    exact ⟨l', List.mem_append_left _ hl', he⟩

/-- The buffer has the markers of the places that are open. -/
theorem contains_eq (hfit : Fitting discipline start ls)
    (hmark : ∀ p q, Opened start ls p → Opened start ls q → mark p = mark q → p = q) {p : P}
    (hp : Opened start ls p) (keep : Bool) :
    (d.buffer keep).contains (mark p).text = decide (.place p ∈ grow discipline start ls) := by
  have hsame (q : P) (hq : .place q ∈ grow discipline start ls) (he : mark q = mark p) : q = p :=
    hmark q p ((hfit.place_mem_grow q).mp hq).1 hp he
  change Text.contains (render d.items) (mark p).text = _
  rw [Mark.contains_render, h.items_eq, decide_eq_decide, marker_mem_items mark hsame]

theorem exists_insert (hfit : Fitting discipline start ls) (hstart : (places start).Nodup)
    (hmark : ∀ p q, Opened start ls p → Opened start ls q → mark p = mark q → p = q)
    (hmem : .place l.place ∈ grow discipline start ls) (keep : Bool)
    {text : String} {tag : Tag} {concept : Node}
    (hmarker : tag.marker {} concept = .ok (mark l.place).text)
    (hdiscipline : tag.discipline = discipline l.place)
    (htext : ∀ first, tag.wrapped first text = render (l.pieces.map (Piece.item mark))) :
    ∃ d', (d.buffer keep).insert text tag concept = .ok (d'.buffer keep) ∧
      Grown mark discipline start (ls ++ [l]) d' := by
  obtain ⟨hopened, huntaken⟩ := (hfit.place_mem_grow l.place).mp hmem
  have hsame (q : P) (hq : .place q ∈ grow discipline start ls) (he : mark q = mark l.place) :
      q = l.place := hmark q l.place ((hfit.place_mem_grow q).mp hq).1 hopened he
  have hunused : discipline l.place = .single → (mark l.place).text ∉ d.used := by
    intro hd hin
    obtain ⟨l', hl', he⟩ := h.used _ hin
    exact huntaken ⟨hd, l', hl', hmark _ _ (hfit.opened hl') hopened (Mark.text_inj he)⟩
  obtain ⟨d', hinsert, hitems, hused⟩ := Draft.exists_insert_line mark h.items_eq
    (hfit.places_nodup hstart) hmem hsame keep hmarker hdiscipline htext hunused
  refine ⟨d', hinsert, by rw [grow_concat, hitems], fun u hu => ?_⟩
  rcases (hused u).mp hu with hu | he
  · obtain ⟨l', hl', he⟩ := h.used u hu
    exact ⟨l', List.mem_append_left _ hl', he⟩
  · exact ⟨l, by simp, he⟩

/-- In the end every place has its content. -/
theorem finish_eq (hstart : Plain start) (hls : ∀ l ∈ ls, Plain l.pieces) :
    (d.buffer false).finish = fill (content discipline ls) start := by
  rw [Draft.finish_buffer, h.items_eq, literals_items mark (plain_grow hstart hls), fill_grow]

end Grown

end Draft

end Buffer

end ConceptScript
