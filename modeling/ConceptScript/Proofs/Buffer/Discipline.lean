import Mathlib.Data.List.Induction
import ConceptScript.Proofs.Buffer.Refinement

namespace ConceptScript.Buffer

/-- A marker with the tag and the concept that it belongs to. -/
structure Slot where
  tag : Tag
  concept : Node
  mark : Mark
  marker_eq : tag.marker {} concept = .ok mark.text
  plain : ∀ formats ∈ tag.wrap?, '<' ∉ formats.1.toList ∧ '<' ∉ formats.2.toList

namespace Slot

variable (s : Slot)

theorem plain_wrapped (first : Bool) (l : Literal) :
    '<' ∉ (s.tag.wrapped first l.text).toList := by
  unfold Tag.wrapped
  split
  · exact l.plain
  · next initial later hw =>
    obtain ⟨hinitial, hlater⟩ := s.plain (initial, later) hw
    rw [Text.replace_eq (by simp), String.toList_ofList]
    intro h
    rcases Text.mem_substitute _ h with h | h
    · cases first
      · exact hlater h
      · exact hinitial h
    · exact l.plain h

def wrapped (first : Bool) (l : Literal) : Literal :=
  ⟨s.tag.wrapped first l.text, s.plain_wrapped first l⟩

def wrappedAll : List Literal → List Literal
  | [] => []
  | l :: ls => s.wrapped true l :: ls.map (s.wrapped false)

/-- What stands at the marker after the texts were inserted. -/
def content (ls : List Literal) : List Literal :=
  match s.tag.discipline with
  | .single => (s.wrappedAll ls).take 1
  | .appendable => s.wrappedAll ls
  | .reverse => (s.wrappedAll ls).reverse

/-- The content with the marker, as long as that is there. -/
def items (ls : List Literal) : List Item :=
  let put := (s.content ls).map .literal
  match s.tag.discipline with
  | .single => if ls = [] then [.marker s.mark] else put
  | .appendable => put ++ [.marker s.mark]
  | .reverse => .marker s.mark :: put

theorem wrappedAll_concat (ls : List Literal) (l : Literal) :
    s.wrappedAll (ls ++ [l]) = s.wrappedAll ls ++ [s.wrapped ls.isEmpty l] := by
  cases ls <;> simp [wrappedAll]

theorem items_nil : s.items [] = [.marker s.mark] := by
  unfold items content
  cases s.tag.discipline <;> simp [wrappedAll]

theorem literals_items (ls : List Literal) :
    literals (s.items ls) = String.join ((s.content ls).map Literal.text) := by
  have hput (ls : List Literal) :
      literals (ls.map .literal) = String.join (ls.map Literal.text) := by
    induction ls with
    | nil => simp [literals]
    | cons l ls ih => simp [literals, ih, String.join_cons]
  unfold items
  cases hd : s.tag.discipline with
  | single =>
    dsimp only
    split
    · next hls => simp [hls, content, hd, wrappedAll, literals]
    · exact hput _
  | appendable => simp [literals_append, hput, literals]
  | reverse => simp [literals, hput]

theorem eq_of_marker_mem {m : Mark} {ls : List Literal} (h : .marker m ∈ s.items ls) :
    m = s.mark := by
  unfold items at h
  cases hd : s.tag.discipline with
  | single =>
    simp only [hd] at h
    split at h <;> simp_all
  | appendable => simpa [hd] using h
  | reverse => simpa [hd] using h

end Slot

structure Call where
  slot : Slot
  text : Literal

def Call.edit (c : Call) : Edit :=
  .insert {
    text := c.text.text, tag := c.slot.tag, concept := c.slot.concept, mark := c.slot.mark
    first := [.literal (c.slot.wrapped true c.text)]
    later := [.literal (c.slot.wrapped false c.text)]
    marker_eq := c.slot.marker_eq
    first_eq := by simp [render, Item.text, Slot.wrapped]
    later_eq := by simp [render, Item.text, Slot.wrapped] }

/-- The texts that are inserted at a marker, in their order. -/
def textsAt (m : Mark) (calls : List Call) : List Literal :=
  (calls.filter fun c => c.slot.mark = m).map Call.text

theorem textsAt_concat_self {m : Mark} (calls : List Call) {c : Call} (h : c.slot.mark = m) :
    textsAt m (calls ++ [c]) = textsAt m calls ++ [c.text] := by
  simp [textsAt, h]

theorem textsAt_concat_other {m : Mark} (calls : List Call) {c : Call} (h : c.slot.mark ≠ m) :
    textsAt m (calls ++ [c]) = textsAt m calls := by
  simp [textsAt, h]

/-- Different markers with literals around them. -/
structure Template where
  lead : Literal
  slots : List (Slot × Literal)
  distinct : (slots.map fun p => p.1.mark).Nodup

namespace Template

variable (t : Template)

def text : String :=
  t.lead.text ++ String.join (t.slots.map fun p => p.1.mark.text ++ p.2.text)

/-- The literals, with what the calls leave at each marker in its place. -/
def filled (calls : List Call) : String :=
  t.lead.text ++ String.join (t.slots.map fun p =>
    String.join ((p.1.content (textsAt p.1.mark calls)).map Literal.text) ++ p.2.text)

def part (calls : List Call) (p : Slot × Literal) : List Item :=
  p.1.items (textsAt p.1.mark calls) ++ [.literal p.2]

def items (calls : List Call) : List Item := .literal t.lead :: t.slots.flatMap (part calls)

theorem render_items_nil : render (t.items []) = t.text := by
  have hslots (ps : List (Slot × Literal)) : render (ps.flatMap (part [])) =
      String.join (ps.map fun p => p.1.mark.text ++ p.2.text) := by
    induction ps with
    | nil => rfl
    | cons p ps ih =>
      rw [List.flatMap_cons, render_append, ih, List.map_cons, String.join_cons]
      simp [part, textsAt, Slot.items_nil, render, Item.text]
  rw [items, render, hslots]
  rfl

theorem literals_items (calls : List Call) : literals (t.items calls) = t.filled calls := by
  have hslots (ps : List (Slot × Literal)) : literals (ps.flatMap (part calls)) =
      String.join (ps.map fun p =>
        String.join ((p.1.content (textsAt p.1.mark calls)).map Literal.text) ++ p.2.text) := by
    induction ps with
    | nil => rfl
    | cons p ps ih =>
      rw [List.flatMap_cons, literals_append, ih, List.map_cons, String.join_cons, part,
        literals_append, Slot.literals_items]
      simp [literals]
  rw [items, literals, hslots]
  rfl

/-- What stands before and after a slot has no part in what happens at it. -/
theorem exists_split {s : Slot} (hs : s ∈ t.slots.map Prod.fst) :
    ∃ before after : List Call → List Item,
      (∀ calls, t.items calls = before calls ++ s.items (textsAt s.mark calls) ++ after calls) ∧
      (∀ calls, .marker s.mark ∉ before calls ∧ .marker s.mark ∉ after calls) ∧
      ∀ calls c, c.slot = s → before (calls ++ [c]) = before calls ∧
        after (calls ++ [c]) = after calls := by
  obtain ⟨⟨s', l⟩, hp, rfl⟩ := List.mem_map.mp hs
  obtain ⟨ps, qs, hslots⟩ := List.append_of_mem hp
  have hdistinct := t.distinct
  rw [hslots, List.map_append, List.map_cons, List.nodup_append, List.nodup_cons] at hdistinct
  obtain ⟨_, ⟨hqs, _⟩, hps⟩ := hdistinct
  have hbefore : ∀ p ∈ ps, p.1.mark ≠ s'.mark := fun p hp =>
    hps _ (List.mem_map_of_mem hp) _ List.mem_cons_self
  have hafter : ∀ q ∈ qs, q.1.mark ≠ s'.mark := by
    intro q hq he
    exact hqs (List.mem_map.mpr ⟨q, hq, he⟩)
  have hnot {rs : List (Slot × Literal)} (hrs : ∀ r ∈ rs, r.1.mark ≠ s'.mark)
      (calls : List Call) : .marker s'.mark ∉ rs.flatMap (part calls) := by
    intro h
    obtain ⟨r, hr, h⟩ := List.mem_flatMap.mp h
    rcases List.mem_append.mp h with h | h
    · exact hrs r hr (r.1.eq_of_marker_mem h).symm
    · simp at h
  have hsame {rs : List (Slot × Literal)} (hrs : ∀ r ∈ rs, r.1.mark ≠ s'.mark)
      (calls : List Call) {c : Call} (hc : c.slot = s') :
      rs.flatMap (part (calls ++ [c])) = rs.flatMap (part calls) := by
    apply List.flatMap_congr
    intro r hr
    rw [part, part, textsAt_concat_other calls (by rw [hc]; exact (hrs r hr).symm)]
  refine ⟨fun calls => .literal t.lead :: ps.flatMap (part calls),
    fun calls => .literal l :: qs.flatMap (part calls), ?_, ?_, ?_⟩
  · intro calls
    simp [items, hslots, part]
  · intro calls
    simp [hnot hbefore calls, hnot hafter calls]
  · intro calls c hc
    exact ⟨congrArg _ (hsame hbefore calls hc), congrArg _ (hsame hafter calls hc)⟩

end Template

namespace Draft

variable {d : Draft} {m : Mark} {xs ys : List Item}

theorem cut_eq (h : d.items = xs ++ .marker m :: ys) (hx : .marker m ∉ xs) :
    d.before m = xs ∧ d.after m = ys := by
  have hpos : ∀ i ∈ xs, decide (i ≠ .marker m) = true := by
    intro i hi
    refine decide_eq_true fun he => hx (he ▸ hi)
  rw [before, after, h, List.takeWhile_append_of_pos hpos, List.dropWhile_append_of_pos hpos]
  simp

theorem flatMap_of_not_mem (h : .marker m ∉ xs) (new : List Item) :
    (xs.flatMap fun i => if i = .marker m then new else [i]) = xs := by
  induction xs with
  | nil => rfl
  | cons x xs ih =>
    rw [List.mem_cons, not_or] at h
    rw [List.flatMap_cons, ih h.2, if_neg (Ne.symm h.1), List.singleton_append]

theorem flatMap_marker (hx : .marker m ∉ xs) (hy : .marker m ∉ ys) (new : List Item) :
    ((xs ++ .marker m :: ys).flatMap fun i => if i = .marker m then new else [i]) =
      xs ++ new ++ ys := by
  rw [List.flatMap_append, List.flatMap_cons, if_pos rfl, flatMap_of_not_mem hx,
    flatMap_of_not_mem hy, List.append_assoc]

theorem run_concat (es : List Edit) (e : Edit) :
    d.run (es ++ [e]) = ((d.run es).edit e).toOption.getD (d.run es) := by
  induction es generalizing d with
  | nil => rfl
  | cons e' es ih => exact ih

/-- A call puts its text among those that are at its marker. -/
theorem edit_call {c : Call} {ls : List Literal} (hitems : d.items = xs ++ c.slot.items ls ++ ys)
    (hx : .marker c.slot.mark ∉ xs) (hy : .marker c.slot.mark ∉ ys)
    (hused : c.slot.mark.text ∈ d.used ↔ ls ≠ [])
    (hsingle : c.slot.tag.discipline = .single → ls = []) :
    .marker c.slot.mark ∈ d.items ∧
      d.edit c.edit = d.update c.slot.mark (xs ++ c.slot.items (ls ++ [c.text]) ++ ys) := by
  have hcontains : d.used.contains c.slot.mark.text = !ls.isEmpty := by
    rw [Bool.eq_iff_iff, List.contains_iff_mem, hused]
    simp
  have hnew : (if d.used.contains c.slot.mark.text then [Item.literal (c.slot.wrapped false c.text)]
      else [.literal (c.slot.wrapped true c.text)]) =
      [.literal (c.slot.wrapped ls.isEmpty c.text)] := by
    rw [hcontains]
    cases ls <;> rfl
  unfold edit Call.edit insert
  dsimp only
  rw [hnew]
  cases hd : c.slot.tag.discipline with
  | single =>
    have hnil := hsingle hd
    subst hnil
    rw [Slot.items_nil, List.append_assoc, List.singleton_append] at hitems
    rw [hcontains]
    refine ⟨by simp [hitems], congrArg (d.update c.slot.mark) ?_⟩
    rw [hitems, flatMap_marker hx hy]
    simp [Slot.items, Slot.content, hd, Slot.wrappedAll]
  | appendable =>
    have hput : d.items = (xs ++ (c.slot.wrappedAll ls).map .literal) ++
        .marker c.slot.mark :: ys := by
      simp [hitems, Slot.items, Slot.content, hd]
    obtain ⟨hbefore, hafter⟩ := cut_eq hput (by simp [hx])
    refine ⟨by simp [hput], congrArg (d.update c.slot.mark) ?_⟩
    rw [hbefore, hafter]
    simp [Slot.items, Slot.content, hd, Slot.wrappedAll_concat]
  | reverse =>
    have hput : d.items = xs ++ .marker c.slot.mark ::
        ((c.slot.wrappedAll ls).reverse.map .literal ++ ys) := by
      simp [hitems, Slot.items, Slot.content, hd]
    obtain ⟨hbefore, hafter⟩ := cut_eq hput hx
    refine ⟨by simp [hput], congrArg (d.update c.slot.mark) ?_⟩
    rw [hbefore, hafter]
    simp [Slot.items, Slot.content, hd, Slot.wrappedAll_concat]

end Draft

/-- The draft of a template after some calls at its markers. -/
structure Tracks (t : Template) (calls : List Call) (d : Draft) : Prop where
  items_eq : d.items = t.items calls
  used_iff : ∀ s ∈ t.slots.map Prod.fst, s.mark.text ∈ d.used ↔ textsAt s.mark calls ≠ []

/-- The marker was there for one insertion, and that was made. -/
def Call.Late (c : Call) (earlier : List Call) : Prop :=
  c.slot.tag.discipline = .single ∧ textsAt c.slot.mark earlier ≠ []

namespace Tracks

variable {t : Template} {calls : List Call} {d : Draft} {c : Call}

theorem used_concat (h : Tracks t calls d) {used : List String}
    (hused : ∀ u, u ∈ used ↔ u ∈ d.used ∨ c.slot.mark.text = u) :
    ∀ s ∈ t.slots.map Prod.fst, s.mark.text ∈ used ↔ textsAt s.mark (calls ++ [c]) ≠ [] := by
  intro s hs
  rw [hused, h.used_iff s hs]
  by_cases hm : c.slot.mark = s.mark
  · simp [textsAt_concat_self calls hm, hm]
  · rw [textsAt_concat_other calls hm, or_iff_left]
    exact fun he => hm (Mark.text_inj he)

theorem late_step (h : Tracks t calls d) (hc : c.slot ∈ t.slots.map Prod.fst)
    (hlate : c.Late calls) :
    d.edit c.edit = .error (.tagAlreadyUsed c.slot.mark.text) ∧ Tracks t (calls ++ [c]) d := by
  obtain ⟨hsingle, hne⟩ := hlate
  have hmem : c.slot.mark.text ∈ d.used := (h.used_iff _ hc).mpr hne
  obtain ⟨before, after, hitems, _, hothers⟩ := t.exists_split hc
  refine ⟨?_, ?_, ?_⟩
  · simp [Draft.edit, Call.edit, Draft.insert, hsingle, hmem]
  · obtain ⟨hb, ha⟩ := hothers calls c rfl
    rw [h.items_eq, hitems, hitems, hb, ha, textsAt_concat_self calls rfl]
    -- The first text stays the only one.
    cases hls : textsAt c.slot.mark calls with
    | nil => exact absurd hls hne
    | cons l ls => simp [Slot.items, Slot.content, hsingle, Slot.wrappedAll]
  · refine h.used_concat fun u => (or_iff_left_of_imp ?_).symm
    rintro rfl
    exact hmem

theorem step (h : Tracks t calls d) (hc : c.slot ∈ t.slots.map Prod.fst)
    (hlate : ¬c.Late calls) : ∃ d', d.edit c.edit = .ok d' ∧ Tracks t (calls ++ [c]) d' := by
  obtain ⟨before, after, hitems, hnot, hothers⟩ := t.exists_split hc
  obtain ⟨hb, ha⟩ := hothers calls c rfl
  obtain ⟨hx, hy⟩ := hnot calls
  obtain ⟨hmem, hedit⟩ := Draft.edit_call (h.items_eq.trans (hitems calls)) hx hy
    (h.used_iff _ hc) fun hsingle => of_not_not fun hne => hlate ⟨hsingle, hne⟩
  have hok := hedit.trans (if_pos hmem)
  refine ⟨_, hok, ?_, h.used_concat (Draft.update_eq_ok (if_pos hmem))⟩
  rw [hitems, hb, ha, textsAt_concat_self calls rfl]

/-- The calls lead from the template to what `Template.items` says, one after the other. -/
theorem run (h : Tracks t [] d) (hcalls : ∀ c ∈ calls, c.slot ∈ t.slots.map Prod.fst) :
    Tracks t calls (d.run (calls.map Call.edit)) := by
  induction calls using List.reverseRecOn with
  | nil => exact h
  | append_singleton calls c ih =>
    have hbefore := ih fun c' hc' => hcalls c' (List.mem_append_left _ hc')
    have hc := hcalls c (by simp)
    rw [List.map_append, List.map_singleton, Draft.run_concat]
    by_cases hlate : c.Late calls
    · obtain ⟨herror, hafter⟩ := hbefore.late_step hc hlate
      rwa [herror]
    · obtain ⟨d', hok, hafter⟩ := hbefore.step hc hlate
      rwa [hok]

end Tracks

theorem Template.exists_draft (t : Template) {b : Buffer} (hoptions : b.options = {})
    (htext : b.text = t.text) (hused : ∀ s ∈ t.slots.map Prod.fst, s.mark.text ∉ b.used) :
    ∃ d : Draft, b = d.buffer false ∧ Tracks t [] d := by
  refine ⟨⟨t.items [], b.used⟩, ?_, rfl, fun s hs => ?_⟩
  · obtain ⟨options, text, used⟩ := b
    obtain rfl : options = {} := hoptions
    obtain rfl : text = t.text := htext
    rw [Draft.buffer, t.render_items_nil]
  · simp [hused s hs, textsAt]

-- A page with places for columns, for notes and for a body.

namespace Page

def columns : Slot where
  tag := { type := "Page", name := "Columns", discipline := .appendable,
           wrap? := some ("\x7btext\x7d", ", \x7btext\x7d") }
  concept := page "Start"
  mark := ⟨"Page Columns Start", rfl, rfl⟩
  marker_eq := by rfl
  plain := by decide

def notes : Slot where
  tag := { type := "Page", name := "Notes", discipline := .reverse }
  concept := page "Start"
  mark := ⟨"Page Notes Start", rfl, rfl⟩
  marker_eq := by rfl
  plain := by simp

def content : Slot where
  tag := body.tag
  concept := body.concept
  mark := body.mark
  marker_eq := body.marker_eq
  plain := by simp [body]

def template : Template where
  lead := ⟨"[", by decide⟩
  slots := [(columns, ⟨"]", by decide⟩), (notes, ⟨"", by decide⟩), (content, ⟨".", by decide⟩)]
  distinct := by decide

def calls : List Call :=
  [⟨content, ⟨"p", by decide⟩⟩, ⟨columns, ⟨"a", by decide⟩⟩, ⟨notes, ⟨"m", by decide⟩⟩,
    ⟨columns, ⟨"b", by decide⟩⟩, ⟨content, ⟨"q", by decide⟩⟩, ⟨notes, ⟨"n", by decide⟩⟩]

end Page

/-- Each marker gets what is inserted at it, whatever happens at the others in between. A call at a
marker for one insertion that has been made is refused and leaves the buffer as it is; every other
call succeeds. What is left in the end depends on the texts at each marker only. -/
theorem insertions_fill_template (t : Template) {b : Buffer} (hoptions : b.options = {})
    (htext : b.text = t.text) (hused : ∀ s ∈ t.slots.map Prod.fst, s.mark.text ∉ b.used)
    {calls : List Call} (hcalls : ∀ c ∈ calls, c.slot ∈ t.slots.map Prod.fst) :
    (b.run (calls.map Call.edit)).finish = t.filled calls ∧
      (∀ earlier c later, calls = earlier ++ c :: later →
        let now := b.run (earlier.map Call.edit)
        let next := b.run ((earlier ++ [c]).map Call.edit)
        (c.Late earlier → now.insert c.text.text c.slot.tag c.slot.concept =
          .error (.tagAlreadyUsed c.slot.mark.text) ∧ next = now) ∧
        (¬c.Late earlier → now.insert c.text.text c.slot.tag c.slot.concept = .ok next)) ∧
      ∀ calls' : List Call, (∀ c ∈ calls', c.slot ∈ t.slots.map Prod.fst) →
        (∀ s ∈ t.slots.map Prod.fst, textsAt s.mark calls' = textsAt s.mark calls) →
          (b.run (calls'.map Call.edit)).finish = (b.run (calls.map Call.edit)).finish := by
  obtain ⟨d, rfl, hstart⟩ := t.exists_draft hoptions htext hused
  have hfinish {cs : List Call} (hcs : ∀ c ∈ cs, c.slot ∈ t.slots.map Prod.fst) :
      ((d.buffer false).run (cs.map Call.edit)).finish = t.filled cs := by
    rw [Draft.run_buffer, Draft.finish_buffer, (hstart.run hcs).items_eq, t.literals_items]
  refine ⟨hfinish hcalls, ?_, ?_⟩
  · rintro earlier c later rfl now next
    have hnow : now = (d.run (earlier.map Call.edit)).buffer false := d.run_buffer false _
    have hinsert : now.insert c.text.text c.slot.tag c.slot.concept =
        ((d.run (earlier.map Call.edit)).edit c.edit).map (Draft.buffer false) := by
      rw [hnow]
      exact Draft.edit_buffer false _ c.edit
    have hnext : next = (((d.run (earlier.map Call.edit)).edit c.edit).toOption.getD
        (d.run (earlier.map Call.edit))).buffer false := by
      rw [← Draft.run_concat, ← Draft.run_buffer, ← List.map_singleton, ← List.map_append]
    have htracks : Tracks t earlier (d.run (earlier.map Call.edit)) :=
      hstart.run fun c' hc' => hcalls c' (List.mem_append_left _ hc')
    have hc := hcalls c (by simp)
    rw [hinsert, hnext]
    constructor
    · intro hlate
      rw [(htracks.late_step hc hlate).1]
      exact ⟨rfl, hnow.symm⟩
    · intro hlate
      obtain ⟨d', hok, _⟩ := htracks.step hc hlate
      rw [hok]
      rfl
  · intro calls' hcalls' htexts
    rw [hfinish hcalls', hfinish hcalls, Template.filled, Template.filled]
    refine congrArg (fun parts => t.lead.text ++ String.join parts) (List.map_congr_left ?_)
    intro p hp
    rw [htexts p.1 (List.mem_map_of_mem hp)]

theorem insertions_fill_template_page :
    let b : Buffer := { text := Page.template.text }
    b.text = "[/*<Page Columns Start>*/]/*<Page Notes Start>*//*<Page Body Start>*/." ∧
      (b.run (Page.calls.map Call.edit)).finish = "[a, b]nmp." ∧
      (b.run ((Page.calls.take 4).map Call.edit)).insert "q" Page.content.tag (Page.page "Start") =
        .error (.tagAlreadyUsed Page.mark.text) := by
  intro b
  have hused : ∀ s ∈ Page.template.slots.map Prod.fst, s.mark.text ∉ b.used := by simp [b]
  have hcalls : ∀ c ∈ Page.calls, c.slot ∈ Page.template.slots.map Prod.fst := by
    simp [Page.calls, Page.template]
  obtain ⟨hfinish, hsplit, _⟩ := insertions_fill_template Page.template rfl rfl hused hcalls
  refine ⟨rfl, hfinish.trans (by decide +kernel), ?_⟩
  obtain ⟨hlate, _⟩ := hsplit (Page.calls.take 4) ⟨Page.content, ⟨"q", by decide⟩⟩
    (Page.calls.drop 5) rfl
  exact (hlate ⟨rfl, by decide⟩).1

end ConceptScript.Buffer
