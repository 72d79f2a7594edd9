import ConceptScript.Proofs.Buffer.Items
import ConceptScript.Proofs.Outcome

namespace ConceptScript.Buffer

/-- An insertion at the marker of a tag. What goes in depends on whether it is the first one. -/
structure Insertion where
  text : String
  tag : Tag
  concept : Node
  mark : Mark
  first : List Item
  later : List Item
  marker_eq : tag.marker {} concept = .ok mark.text
  first_eq : tag.wrapped true text = render first
  later_eq : tag.wrapped false text = render later

inductive Edit where
  | append (items : List Item)
  | replace (mark : Mark) (items : List Item)
  | insertBefore (mark : Mark) (items : List Item)
  | insertAfter (mark : Mark) (items : List Item)
  | insert (i : Insertion)

def Edit.mark? : Edit → Option Mark
  | append _ => none
  | replace m _ => some m
  | insertBefore m _ => some m
  | insertAfter m _ => some m
  | insert i => some i.mark

/-- An insertion that takes the place of its marker. -/
def Edit.isSingle : Edit → Bool
  | insert i => i.tag.discipline == .single
  | _ => false

def edit (b : Buffer) : Edit → Except GenerationError Buffer
  | .append is => .ok (b.append (render is))
  | .replace m is => b.replace m.text (render is)
  | .insertBefore m is => b.insertBefore m.text (render is)
  | .insertAfter m is => b.insertAfter m.text (render is)
  | .insert i => b.insert i.text i.tag i.concept

def run (b : Buffer) : List Edit → Buffer
  | [] => b
  | e :: es => ((b.edit e).toOption.getD b).run es

/-- One of the edits was at the marker and succeeded. -/
def UsedBy (b : Buffer) (es : List Edit) (m : Mark) : Prop :=
  ∃ before e after, es = before ++ e :: after ∧ e.mark? = some m ∧
    ∃ b', (b.run before).edit e = .ok b'

/-- A buffer as items, with the texts of the markers that something was inserted at. -/
structure Draft where
  items : List Item := []
  used : List String := []

namespace Draft

def buffer (keep : Bool) (d : Draft) : Buffer := ⟨{ keepUnusedTags := keep }, render d.items, d.used⟩

def missing (d : Draft) (m : Mark) : GenerationError :=
  if d.used.contains m.text then .tagAlreadyUsed m.text else .tagNotFound m.text

def update (d : Draft) (m : Mark) (items : List Item) : Except GenerationError Draft :=
  if .marker m ∈ d.items then
    .ok ⟨items, if d.used.contains m.text then d.used else m.text :: d.used⟩
  else .error (d.missing m)

def before (d : Draft) (m : Mark) : List Item := d.items.takeWhile (· ≠ .marker m)

def after (d : Draft) (m : Mark) : List Item := (d.items.dropWhile (· ≠ .marker m)).tail

def replace (d : Draft) (m : Mark) (new : List Item) : Except GenerationError Draft :=
  d.update m (d.items.flatMap fun i => if i = .marker m then new else [i])

def insertBefore (d : Draft) (m : Mark) (new : List Item) : Except GenerationError Draft :=
  d.update m (d.before m ++ new ++ .marker m :: d.after m)

def insertAfter (d : Draft) (m : Mark) (new : List Item) : Except GenerationError Draft :=
  d.update m (d.before m ++ .marker m :: (new ++ d.after m))

def insert (d : Draft) (i : Insertion) : Except GenerationError Draft :=
  let again := d.used.contains i.mark.text
  let new := if again then i.later else i.first
  match i.tag.discipline with
  | .single => if again then .error (.tagAlreadyUsed i.mark.text) else d.replace i.mark new
  | .appendable => d.insertBefore i.mark new
  | .reverse => d.insertAfter i.mark new

def edit (d : Draft) : Edit → Except GenerationError Draft
  | .append is => .ok { d with items := d.items ++ is }
  | .replace m is => d.replace m is
  | .insertBefore m is => d.insertBefore m is
  | .insertAfter m is => d.insertAfter m is
  | .insert i => d.insert i

def run (d : Draft) : List Edit → Draft
  | [] => d
  | e :: es => ((d.edit e).toOption.getD d).run es

variable (keep : Bool) (d : Draft) (m : Mark)

theorem locate_buffer :
    (d.buffer keep).locate m.text =
      if .marker m ∈ d.items then .ok (render (d.before m), render (d.after m))
      else .error (d.missing m) := by
  rw [locate, buffer, m.cutAt?_render]
  by_cases h : .marker m ∈ d.items
  · simp only [if_pos h, String.ofList_toList]
    rfl
  · rw [if_neg h, if_neg h, missing]
    dsimp only
    split <;> rfl

/-- What the edits at a marker have in common. -/
theorem update_buffer {items : List Item} (change : String × String → Buffer)
    (h : .marker m ∈ d.items → change (render (d.before m), render (d.after m)) =
      (d.buffer keep).use m.text (render items)) :
    (do return change (← (d.buffer keep).locate m.text)) =
      (d.update m items).map (buffer keep) := by
  rw [d.locate_buffer, update]
  by_cases hm : .marker m ∈ d.items
  · rw [if_pos hm, if_pos hm]
    exact congrArg Except.ok (h hm)
  · rw [if_neg hm, if_neg hm]
    rfl

theorem replace_buffer (new : List Item) :
    (d.buffer keep).replace m.text (render new) = (d.replace m new).map (buffer keep) := by
  refine d.update_buffer keep m (fun _ => _) fun _ => ?_
  rw [← m.replace_render]
  rfl

theorem insertBefore_buffer (new : List Item) :
    (d.buffer keep).insertBefore m.text (render new) = (d.insertBefore m new).map (buffer keep) := by
  refine d.update_buffer keep m (fun cut => _) fun _ => ?_
  simp only [render_append, render, Item.text, String.append_assoc]

theorem insertAfter_buffer (new : List Item) :
    (d.buffer keep).insertAfter m.text (render new) = (d.insertAfter m new).map (buffer keep) := by
  refine d.update_buffer keep m (fun cut => _) fun _ => ?_
  simp only [render_append, render, Item.text, String.append_assoc]

theorem insert_buffer (i : Insertion) :
    (d.buffer keep).insert i.text i.tag i.concept = (d.insert i).map (buffer keep) := by
  have hmarker : (d.buffer keep).marker i.tag i.concept = .ok i.mark.text := by
    change (i.tag.marker {} i.concept).mapError _ = _
    rw [i.marker_eq]
    rfl
  have hwrapped : i.tag.wrapped (!d.used.contains i.mark.text) i.text =
      render (if d.used.contains i.mark.text then i.later else i.first) := by
    cases d.used.contains i.mark.text
    · exact i.first_eq
    · exact i.later_eq
  rw [Buffer.insert, hmarker, ok_bind, insert]
  dsimp only
  rw [show (d.buffer keep).used = d.used from rfl, hwrapped]
  cases i.tag.discipline with
  | single =>
    dsimp only
    split
    · rfl
    · exact d.replace_buffer keep i.mark _
  | appendable => exact d.insertBefore_buffer keep i.mark _
  | reverse => exact d.insertAfter_buffer keep i.mark _

theorem edit_buffer (e : Edit) :
    (d.buffer keep).edit e = (d.edit e).map (buffer keep) := by
  cases e with
  | append is =>
    refine congrArg Except.ok ?_
    rw [buffer, buffer, Buffer.append, render_append]
  | replace m is => exact d.replace_buffer keep m is
  | insertBefore m is => exact d.insertBefore_buffer keep m is
  | insertAfter m is => exact d.insertAfter_buffer keep m is
  | insert i => exact d.insert_buffer keep i

/-- Whatever is done to a buffer, its text is the rendering of the items that the same edits
make. -/
theorem run_buffer (es : List Edit) : (d.buffer keep).run es = (d.run es).buffer keep := by
  induction es generalizing d with
  | nil => rfl
  | cons e es ih =>
    rw [Buffer.run, d.edit_buffer, run, ← ih]
    cases d.edit e <;> rfl

variable {d m}

theorem update_eq_ok {items : List Item} {d' : Draft} (h : d.update m items = .ok d') (u : String) :
    u ∈ d'.used ↔ u ∈ d.used ∨ m.text = u := by
  unfold update at h
  split at h
  · obtain rfl := Except.ok.inj h
    by_cases hc : d.used.contains m.text = true
    · rw [if_pos hc]
      refine (or_iff_left_of_imp ?_).symm
      rintro rfl
      simpa using hc
    · rw [if_neg hc, List.mem_cons, or_comm, eq_comm]
  · cases h

theorem mem_used_of_edit {e : Edit} {d' : Draft} (h : d.edit e = .ok d') (u : String) :
    u ∈ d'.used ↔ u ∈ d.used ∨ e.mark?.map Mark.text = some u := by
  cases e with
  | append is =>
    obtain rfl := Except.ok.inj h
    simp [Edit.mark?]
  | replace m is => simpa [Edit.mark?] using update_eq_ok h u
  | insertBefore m is => simpa [Edit.mark?] using update_eq_ok h u
  | insertAfter m is => simpa [Edit.mark?] using update_eq_ok h u
  | insert i =>
    have hupdate : ∃ items, d.update i.mark items = .ok d' := by
      rw [edit, insert] at h
      split at h
      · split at h
        · cases h
        · exact ⟨_, h⟩
      · exact ⟨_, h⟩
      · exact ⟨_, h⟩
    obtain ⟨items, hitems⟩ := hupdate
    simpa [Edit.mark?] using update_eq_ok hitems u

/-- The marker is not there, or it was there for one insertion that has been made. -/
def Refuses (d : Draft) (e : Edit) (m : Mark) : Prop :=
  .marker m ∉ d.items ∨ e.isSingle = true ∧ m.text ∈ d.used

theorem update_cases (items : List Item) :
    (.marker m ∉ d.items ∧ d.update m items = .error (d.missing m)) ∨
      .marker m ∈ d.items ∧ ∃ d', d.update m items = .ok d' := by
  by_cases hm : .marker m ∈ d.items
  · exact .inr ⟨hm, _, if_pos hm⟩
  · exact .inl ⟨hm, if_neg hm⟩

theorem edit_cases {e : Edit} (he : e.mark? = some m) :
    (d.Refuses e m ∧ d.edit e = .error (d.missing m)) ∨
      ¬d.Refuses e m ∧ ∃ d', d.edit e = .ok d' := by
  have hplain (items : List Item) (hs : e.isSingle = false) (hu : d.edit e = d.update m items) :
      (d.Refuses e m ∧ d.edit e = .error (d.missing m)) ∨
        ¬d.Refuses e m ∧ ∃ d', d.edit e = .ok d' := by
    rw [hu]
    rcases update_cases items with ⟨hm, herror⟩ | ⟨hm, hok⟩
    · exact .inl ⟨.inl hm, herror⟩
    · exact .inr ⟨by simp [Refuses, hm, hs], hok⟩
  cases e with
  | append is => cases he
  | replace m' is =>
    obtain rfl := Option.some.inj he
    exact hplain _ rfl rfl
  | insertBefore m' is =>
    obtain rfl := Option.some.inj he
    exact hplain _ rfl rfl
  | insertAfter m' is =>
    obtain rfl := Option.some.inj he
    exact hplain _ rfl rfl
  | insert i =>
    obtain rfl := Option.some.inj he
    cases hd : i.tag.discipline with
    | appendable => exact hplain _ (by simp [Edit.isSingle, hd]) (by rw [edit, insert, hd]; rfl)
    | reverse => exact hplain _ (by simp [Edit.isSingle, hd]) (by rw [edit, insert, hd]; rfl)
    | single =>
      have hs : (Edit.insert i).isSingle = true := by simp [Edit.isSingle, hd]
      have hedit : d.edit (.insert i) =
          if d.used.contains i.mark.text then .error (.tagAlreadyUsed i.mark.text)
          else d.replace i.mark (if d.used.contains i.mark.text then i.later else i.first) := by
        rw [edit, insert, hd]
      by_cases hc : d.used.contains i.mark.text = true
      · rw [hedit, if_pos hc, missing, if_pos hc]
        exact .inl ⟨.inr ⟨hs, by simpa using hc⟩, rfl⟩
      · rw [hedit, if_neg hc]
        rcases update_cases _ with ⟨hm, herror⟩ | ⟨hm, hok⟩
        · exact .inl ⟨.inl hm, herror⟩
        · refine .inr ⟨?_, hok⟩
          rintro (hn | ⟨_, hu⟩)
          · exact hn hm
          · exact hc (by simpa using hu)

theorem mem_used_run (es : List Edit) (u : String) :
    u ∈ (d.run es).used ↔ u ∈ d.used ∨ ∃ before e after, es = before ++ e :: after ∧
      e.mark?.map Mark.text = some u ∧ ∃ d', (d.run before).edit e = .ok d' := by
  induction es generalizing d with
  | nil => simp [run]
  | cons e es ih =>
    -- The first edit counts if it succeeds; the others count from where it leads.
    have hfirst : u ∈ ((d.edit e).toOption.getD d).used ↔
        u ∈ d.used ∨ e.mark?.map Mark.text = some u ∧ ∃ d', d.edit e = .ok d' := by
      cases hd : d.edit e with
      | error r => simp [Except.toOption]
      | ok d' => simpa [Except.toOption] using mem_used_of_edit hd u
    rw [run, ih, hfirst, or_assoc]
    refine or_congr_right ?_
    constructor
    · rintro (⟨hmark, hok⟩ | ⟨before, e', after, rfl, hrest⟩)
      · exact ⟨[], e, es, rfl, hmark, hok⟩
      · exact ⟨e :: before, e', after, rfl, hrest⟩
    · rintro ⟨before, e', after, hes, hmark, hok⟩
      cases before with
      | nil =>
        obtain ⟨rfl, rfl⟩ := List.cons.inj hes
        exact .inl ⟨hmark, hok⟩
      | cons e'' before =>
        obtain ⟨rfl, rfl⟩ := List.cons.inj hes
        exact .inr ⟨before, e', after, rfl, hmark, hok⟩

theorem succeeds_iff (e : Edit) :
    (∃ b, (d.buffer keep).edit e = .ok b) ↔ ∃ d', d.edit e = .ok d' := by
  rw [edit_buffer]
  cases d.edit e <;> simp [Except.map]

theorem usedBy_iff (es : List Edit) :
    m.text ∈ (d.run es).used ↔ m.text ∈ d.used ∨ (d.buffer keep).UsedBy es m := by
  rw [mem_used_run]
  refine or_congr_right ?_
  simp only [UsedBy, run_buffer, succeeds_iff, Option.map_eq_some_iff]
  constructor
  · rintro ⟨before, e, after, hes, ⟨m', hm', htext⟩, hok⟩
    exact ⟨before, e, after, hes, Mark.text_inj htext ▸ hm', hok⟩
  · rintro ⟨before, e, after, hes, hm, hok⟩
    exact ⟨before, e, after, hes, ⟨m, hm, rfl⟩, hok⟩

theorem finish_buffer (d : Draft) : (d.buffer false).finish = literals d.items := by
  have hne : "/*<".toList ≠ [] ∨ ">*/".toList ≠ [] := .inl (by simp)
  rw [finish, buffer, if_neg (by simp), dif_pos hne, ← String.toList_inj, String.toList_ofList]
  refine strip_render d.items ?_ ?_ hne
  · rfl
  · rfl

end Draft

-- A page with a place for one body.

namespace Page

def type : ConceptType where
  name := "Page"
  keyword? := none
  isInterface := false
  deprecation? := none
  members := [⟨"Name", .identifier, true, false⟩]
  root := "Page"
  ancestors := ["Page"]
  arity? := some 1
  nesting := ⟨true, 0⟩

def page (name : String) : Node := .mk type [some (.text name)]

def mark : Mark := ⟨"Page Body Start", rfl, rfl⟩

def body : Insertion where
  text := "x"
  tag := { type := "Page", name := "Body", discipline := .single }
  concept := page "Start"
  mark := mark
  first := [.literal ⟨"x", by decide⟩]
  later := [.literal ⟨"x", by decide⟩]
  marker_eq := by rfl
  first_eq := by rfl
  later_eq := by rfl

/-- A place for a body between parentheses, and then the body. -/
def edits : List Edit :=
  [.append [.literal ⟨"(", by decide⟩, .marker mark, .literal ⟨")", by decide⟩], .insert body]

end Page

/-- A buffer is a list of items. Its text renders the items that the edits make; a marker is found
exactly if it is one of them; an edit at a marker fails exactly if it is not there, or if the edit
is the insertion of a tag for one insertion and an earlier edit at the marker succeeded; and what is
left in the end is the literals. -/
theorem edits_refine_items (keep : Bool) (es : List Edit) :
    let start : Buffer := { options := { keepUnusedTags := keep } }
    let b := start.run es
    let items := (Draft.run {} es).items
    b.text = render items ∧ (∀ m : Mark, b.contains m.text = true ↔ .marker m ∈ items) ∧
      (∀ e m, e.mark? = some m →
        ((∃ error, b.edit e = .error error) ↔
          .marker m ∉ items ∨ e.isSingle = true ∧ start.UsedBy es m) ∧
        ∀ error, b.edit e = .error error →
          (start.UsedBy es m → error = .tagAlreadyUsed m.text) ∧
            (¬start.UsedBy es m → error = .tagNotFound m.text)) ∧
      (keep = false → b.finish = literals items) := by
  intro start b items
  have hb : b = (Draft.run {} es).buffer keep := Draft.run_buffer keep {} es
  have hused (m : Mark) : m.text ∈ (Draft.run {} es).used ↔ start.UsedBy es m :=
    (Draft.usedBy_iff keep es).trans (or_iff_right (by simp))
  rw [hb]
  refine ⟨rfl, fun m => ?_, fun e m he => ?_, ?_⟩
  · exact (Bool.eq_iff_iff.mp (m.contains_render items)).trans decide_eq_true_iff
  · have hrefuses : (Draft.run {} es).Refuses e m ↔
        .marker m ∉ items ∨ e.isSingle = true ∧ start.UsedBy es m := by
      rw [Draft.Refuses, hused]
    rw [← hrefuses, Draft.edit_buffer]
    rcases Draft.edit_cases he with ⟨hr, herror⟩ | ⟨hr, d', hok⟩
    · rw [herror]
      refine ⟨iff_of_true ⟨_, rfl⟩ hr, ?_⟩
      intro error h
      obtain rfl := Except.error.inj h
      rw [← hused, Draft.missing]
      constructor
      · intro hu
        rw [if_pos (by simpa using hu)]
      · intro hu
        rw [if_neg (by simpa using hu)]
    · rw [hok]
      refine ⟨iff_of_false ?_ hr, ?_⟩
      · rintro ⟨error, h⟩
        cases h
      · intro error h
        cases h
  · rintro rfl
    exact Draft.finish_buffer _

/-- After its one insertion a marker is gone, and nothing else is put in its place. -/
theorem edits_refine_items_page :
    let b := run {} Page.edits
    b.text = "(x)" ∧ b.contains Page.mark.text = false ∧ b.finish = "(x)" ∧
      b.edit (.replace Page.mark []) = .error (.tagAlreadyUsed Page.mark.text) := by
  intro b
  obtain ⟨htext, hcontains, hfails, hfinish⟩ := edits_refine_items false Page.edits
  have hitems : (Draft.run {} Page.edits).items = [.literal ⟨"(", by decide⟩,
      .literal ⟨"x", by decide⟩, .literal ⟨")", by decide⟩] := by decide +kernel
  rw [hitems] at htext hcontains hfails hfinish
  obtain ⟨hiff, herror⟩ := hfails (.replace Page.mark []) Page.mark rfl
  have hmem : Page.mark.text ∈ (Draft.run {} Page.edits).used := by decide +kernel
  have hused : UsedBy {} Page.edits Page.mark :=
    ((Draft.usedBy_iff false Page.edits).mp hmem).resolve_left (by simp)
  obtain ⟨error, he⟩ := hiff.mpr (.inl (by decide))
  refine ⟨htext, ?_, hfinish rfl, ?_⟩
  · exact Bool.eq_false_iff.mpr fun h => absurd ((hcontains Page.mark).mp h) (by decide)
  · rw [he, (herror error he).1 hused]

/-- A marker that stands in the text again after its one insertion is there, and the insertion is
refused. -/
theorem single_refused_at_marker :
    let b := run {} (Page.edits ++ [.append [.marker Page.mark]])
    .marker Page.mark ∈ (Draft.run {} (Page.edits ++ [.append [.marker Page.mark]])).items ∧
      b.contains Page.mark.text = true ∧
      b.edit (.insert Page.body) = .error (.tagAlreadyUsed Page.mark.text) := by
  decide +kernel

end ConceptScript.Buffer
