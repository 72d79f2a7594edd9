import ConceptScript.Proofs.Buffer.Refinement
import ConceptScript.Proofs.Outcome

namespace ConceptScript

namespace Text

variable {p : List Char}

/-- An occurrence of the pattern that starts earlier does not go on here. -/
def Stops (p rest : List Char) : Prop := ∀ s, s <:+ p → s ≠ [] → s ≠ p → ¬s <+: rest

theorem stops_cons {c : Char} (h : c ∉ p) (rest : List Char) : Stops p (c :: rest) := by
  intro s hs hne _ hrest
  obtain ⟨d, ds, rfl⟩ := List.exists_cons_of_ne_nil hne
  obtain ⟨rfl, _⟩ := List.cons_prefix_cons.mp hrest
  exact h (hs.subset List.mem_cons_self)

/-- No end of the text is also a beginning of it. -/
def isBorderless (p : List Char) : Bool :=
  p.tails.all fun s => s.isEmpty || s == p || !decide (s <+: p)

theorem stops_self (h : isBorderless p = true) (rest : List Char) : Stops p (p ++ rest) := by
  intro s hs hne hproper hrest
  have hborder : s <+: p :=
    List.prefix_of_prefix_length_le hrest (List.prefix_append p rest) hs.length_le
  have := List.all_eq_true.mp h s ((List.mem_tails s p).mpr hs)
  simp [hne, hproper, hborder] at this

theorem clear_of_not_mem (hp : p ≠ []) {xs : List Char} (h : ∀ c ∈ xs, c ∉ p) (rest : List Char) :
    Clear p xs rest := by
  induction xs with
  | nil => trivial
  | cons c xs ih =>
    obtain ⟨hc, hxs⟩ := List.forall_mem_cons.mp h
    refine ⟨?_, ih hxs⟩
    intro hprefix
    obtain ⟨d, ds, rfl⟩ := List.exists_cons_of_ne_nil hp
    exact hc (by simp [(List.cons_prefix_cons.mp hprefix).1])

theorem clear_intercalate (hp : p ≠ []) (hdot : '.' ∉ p) {parts : List String}
    (h : ∀ s ∈ parts, ¬p <:+: s.toList) {rest : List Char} (hrest : Stops p rest) :
    Clear p (".".intercalate parts).toList rest := by
  induction parts with
  | nil => simp [Clear]
  | cons s parts ih =>
    obtain ⟨hs, hparts⟩ := List.forall_mem_cons.mp h
    cases parts with
    | nil =>
      rw [String.intercalate_singleton]
      exact clear_of_not_infix hs hrest
    | cons s' parts =>
      have hsep (more : List Char) : Clear p ".".toList more :=
        clear_of_not_mem hp (by simpa using hdot) more
      rw [String.intercalate_cons_cons, String.toList_append, String.toList_append, clear_append,
        clear_append]
      refine ⟨⟨?_, hsep _⟩, ih hparts⟩
      exact clear_of_not_infix hs (stops_cons hdot _)

/-- A closing delimiter behind the body comes before the one at its end. -/
def ClosesEarly (closing body : List Char) : Prop :=
  ∃ before after, body ++ closing = before ++ closing ++ after ∧ after ≠ []

theorem closesEarly_cons {c : Char} {body : List Char} :
    ClosesEarly p (c :: body) ↔ p <+: c :: (body ++ p) ∨ ClosesEarly p body := by
  constructor
  · rintro ⟨before, after, heq, hafter⟩
    cases before with
    | nil => exact .inl ⟨after, by simpa using heq.symm⟩
    | cons d before => exact .inr ⟨before, after, (List.cons.inj heq).2, hafter⟩
  · rintro (⟨after, heq⟩ | ⟨before, after, heq, hafter⟩)
    · refine ⟨[], after, heq.symm, ?_⟩
      rintro rfl
      have := congrArg List.length heq
      simp at this
      omega
    · exact ⟨c :: before, after, congrArg (c :: ·) heq, hafter⟩

theorem clear_iff_not_closesEarly {body : List Char} (rest : List Char) :
    Clear p body (p ++ rest) ↔ ¬ClosesEarly p body := by
  induction body with
  | nil =>
    refine iff_of_true trivial ?_
    rintro ⟨before, after, heq, hafter⟩
    have hlen := congrArg List.length heq
    have := List.length_pos_iff.mpr hafter
    simp at hlen
    omega
  | cons c body ih =>
    -- What follows the delimiter at the end is too far away for an occurrence that starts here.
    have hnear : p <+: c :: (body ++ (p ++ rest)) ↔ p <+: c :: (body ++ p) := by
      have hmore : c :: (body ++ p) <+: c :: (body ++ (p ++ rest)) := ⟨rest, by simp⟩
      refine ⟨fun h => List.prefix_of_prefix_length_le h hmore ?_, fun h => h.trans hmore⟩
      simp
      omega
    rw [Clear, hnear, ih, closesEarly_cons, not_or]

end Text

namespace Tag

inductive Piece where
  | char (c : Char)
  | slot (name : List Char)
  deriving DecidableEq

def pieces : List Char → List Piece
  | [] => []
  | c :: cs =>
    if c = '\x7b' then
      match _h : slot? cs with
      | some (name, rest) => .slot name :: pieces rest
      | none => .char c :: pieces cs
    else .char c :: pieces cs
termination_by cs => cs.length
decreasing_by
  · have := length_lt_of_slot? _h
    simp
    omega
  · simp
  · simp

namespace Piece

def char? : Piece → Option Char
  | char c => some c
  | slot _ => none

def isSlot : Piece → Bool
  | char _ => false
  | slot _ => true

def value (parts : List String) : Piece → Except Fault (List Char)
  | char c => .ok [c]
  | slot name => (slotValue parts name).map String.toList

end Piece

def assemble (parts : List String) (ps : List Piece) : Except Fault (List Char) :=
  (ps.mapM (Piece.value parts)).map List.flatten

theorem assemble_cons (parts : List String) (p : Piece) (ps : List Piece) :
    assemble parts (p :: ps) = do return (← p.value parts) ++ (← assemble parts ps) := by
  unfold assemble
  rw [List.mapM_cons]
  cases p.value parts with
  | error fault => rfl
  | ok v => cases ps.mapM (Piece.value parts) <;> rfl

theorem pieces_slot {cs name rest : List Char} (h : slot? cs = some (name, rest)) :
    pieces ('\x7b' :: cs) = .slot name :: pieces rest := by
  rw [pieces, if_pos rfl]
  split
  · next h' =>
    obtain ⟨rfl, rfl⟩ := Prod.mk.inj (Option.some.inj (h.symm.trans h'))
    rfl
  · next h' => simp [h] at h'

theorem pieces_brace {cs : List Char} (h : slot? cs = none) :
    pieces ('\x7b' :: cs) = .char '\x7b' :: pieces cs := by
  rw [pieces, if_pos rfl]
  split
  · next h' => simp [h] at h'
  · rfl

theorem fill_eq_assemble (parts : List String) (cs : List Char) :
    fill parts cs = assemble parts (pieces cs) := by
  induction cs using pieces.induct with
  | case1 => rw [fill, pieces]; rfl
  | case2 cs name rest h ih =>
    rw [pieces_slot h, assemble_cons, ← ih, fill, if_pos rfl]
    split
    · next h' =>
      obtain ⟨rfl, rfl⟩ := Prod.mk.inj (Option.some.inj (h.symm.trans h'))
      rw [Piece.value]
      cases slotValue parts name <;> rfl
    · next h' => simp [h] at h'
  | case3 cs h ih =>
    rw [pieces_brace h, assemble_cons, ← ih, fill, if_pos rfl]
    split
    · next h' => simp [h] at h'
    · rfl
  | case4 c cs h ih =>
    rw [fill, pieces, if_neg h, if_neg h, assemble_cons, ih]
    rfl

theorem assemble_char (parts : List String) (cs : List Char) (ps : List Piece) :
    assemble parts (cs.map .char ++ ps) = (assemble parts ps).map (cs ++ ·) := by
  induction cs with
  | nil =>
    rw [List.map_nil, List.nil_append]
    cases assemble parts ps <;> rfl
  | cons c cs ih =>
    rw [List.map_cons, List.cons_append, assemble_cons, ih]
    cases assemble parts ps <;> rfl

/-- The body of the markers of a tag. Without a template it is the type, the name and the key. -/
def layout (tag : Tag) : List Piece :=
  match tag.template? with
  | none => (tag.type ++ " " ++ tag.name ++ " ").toList.map .char ++ [.slot "key".toList]
  | some template => pieces template.toList

theorem body_eq_layout (tag : Tag) (parts : List String) :
    tag.body parts = (assemble parts tag.layout).map String.ofList := by
  unfold body layout
  cases tag.template? with
  | none =>
    dsimp only
    have hkey : assemble parts [.slot "key".toList] = .ok (".".intercalate parts).toList := by
      rw [assemble_cons, Piece.value, slotValue, if_pos rfl]
      refine congrArg Except.ok ?_
      simp
    rw [assemble_char, hkey]
    refine congrArg Except.ok (String.toList_inj.mp ?_)
    simp
  | some template =>
    dsimp only
    rw [fill_eq_assemble]

theorem marker_eq_ok_iff {tag : Tag} {options : GenerationOptions} {concept : Node}
    {marker : String} : tag.marker options concept = .ok marker ↔
      concept.type.isA tag.type = true ∧
      (∀ part ∈ concept.keyParts, Text.contains part options.tagOpen = false ∧
        Text.contains part options.tagClose = false) ∧
      ∃ body, tag.body concept.keyParts = .ok body ∧
        options.tagOpen ++ body ++ options.tagClose = marker := by
  have hfind := List.find?_eq_none (l := concept.keyParts) (p := fun part =>
    Text.contains part options.tagOpen || Text.contains part options.tagClose)
  simp only [Bool.or_eq_true, not_or, Bool.not_eq_true] at hfind
  unfold Tag.marker
  dsimp only
  rw [← hfind]
  cases concept.type.isA tag.type with
  | false =>
    refine iff_of_false ?_ (by simp)
    intro h
    cases h
  | true =>
    generalize concept.keyParts.find? _ = found
    cases found with
    | some part =>
      refine iff_of_false ?_ (by simp)
      intro h
      cases h
    | none =>
      simp only [true_and]
      exact bind_eq_ok.trans (by simp)

def ownText (tag : Tag) : List Char :=
  match tag.template? with
  | none => tag.type.toList ++ tag.name.toList
  | some template => (pieces template.toList).filterMap Piece.char?

/-- No slot stands right behind another one. -/
def slotsApart : List Piece → Bool
  | .slot _ :: .slot _ :: _ => false
  | _ :: ps => slotsApart ps
  | [] => true

/-- No closing delimiter comes about where the parts of a marker meet: slots do not meet, the
separators are not in the delimiter, and the delimiter does not overlap itself. -/
def keepsApart (tag : Tag) (closing : List Char) : Bool :=
  Text.isBorderless closing && slotsApart tag.layout &&
    (tag.template?.isSome || !closing.contains ' ') &&
    (!tag.layout.contains (.slot "key".toList) || !closing.contains '.')

section Layout

variable {closing : List Char} {parts : List String}

theorem slotValue_eq_ok {name : List Char} {s : String} (h : slotValue parts name = .ok s) :
    name = "key".toList ∧ s = ".".intercalate parts ∨ s ∈ parts := by
  unfold slotValue at h
  split at h
  · next hname => exact .inl ⟨hname, (Except.ok.inj h).symm⟩
  · dsimp only at h
    split at h
    · next part hpart =>
      obtain rfl := Except.ok.inj h
      split at hpart
      · exact .inr (List.mem_of_getElem? hpart)
      · cases hpart
    · cases h

variable (hclosing : closing ≠ []) (hparts : ∀ s ∈ parts, ¬closing <:+: s.toList)
include hclosing hparts

theorem clear_slot {name : List Char} {v : List Char}
    (hv : Piece.value parts (.slot name) = .ok v)
    (hdot : name = "key".toList → '.' ∉ closing) {rest : List Char}
    (hrest : Text.Stops closing rest) : Text.Clear closing v rest := by
  obtain ⟨s, hs, rfl⟩ : ∃ s, slotValue parts name = .ok s ∧ s.toList = v := by
    cases hs : slotValue parts name with
    | error fault => simp [Piece.value, hs, Except.map] at hv
    | ok s => exact ⟨s, rfl, by simpa [Piece.value, hs, Except.map] using hv⟩
  rcases slotValue_eq_ok hs with ⟨hname, rfl⟩ | hmem
  · exact Text.clear_intercalate hclosing (hdot hname) hparts hrest
  · exact Text.clear_of_not_infix (hparts s hmem) hrest

/-- Behind the pieces stands the closing delimiter, and it is the first one. Where no slot comes
first, nothing that started before the pieces goes on in them. -/
theorem clear_pieces (hborder : Text.isBorderless closing = true) {ps : List Piece}
    {vs : List (List Char)} (hvs : List.Forall₂ (fun p v => Piece.value parts p = .ok v) ps vs)
    (hchars : ∀ c, .char c ∈ ps → c ∉ closing)
    (hdot : .slot "key".toList ∈ ps → '.' ∉ closing) (hapart : slotsApart ps = true)
    (rest : List Char) :
    Text.Clear closing vs.flatten (closing ++ rest) ∧
      (ps.head?.all (!·.isSlot) = true → Text.Stops closing (vs.flatten ++ (closing ++ rest))) := by
  induction hvs with
  | nil => exact ⟨trivial, fun _ => Text.stops_self hborder rest⟩
  | @cons p v ps vs hv _ ih =>
    have hmore := ih (fun c hc => hchars c (List.mem_cons_of_mem p hc))
      (fun hk => hdot (List.mem_cons_of_mem p hk))
    cases p with
    | char c =>
      obtain rfl : [c] = v := Except.ok.inj hv
      have hc := hchars c List.mem_cons_self
      obtain ⟨hclear, _⟩ := hmore (by simpa [slotsApart] using hapart)
      rw [List.flatten_cons, Text.clear_append]
      refine ⟨⟨?_, hclear⟩, fun _ => Text.stops_cons hc _⟩
      exact Text.clear_of_not_mem hclosing (by simpa using hc) _
    | slot name =>
      have hnext : ps.head?.all (!·.isSlot) = true ∧ slotsApart ps = true := by
        cases ps with
        | nil => simp [slotsApart]
        | cons p ps => cases p <;> simp_all [slotsApart, Piece.isSlot]
      obtain ⟨hclear, hstops⟩ := hmore hnext.2
      rw [List.flatten_cons, Text.clear_append]
      refine ⟨⟨clear_slot hclosing hparts hv ?_ (hstops hnext.1), hclear⟩, by simp [Piece.isSlot]⟩
      rintro rfl
      exact hdot List.mem_cons_self

end Layout

theorem mem_ownText {tag : Tag} {c : Char} (h : .char c ∈ tag.layout) :
    c ∈ tag.ownText ∨ tag.template? = none ∧ c = ' ' := by
  unfold layout at h
  unfold ownText
  cases htemplate : tag.template? with
  | none =>
    simp only [htemplate] at h ⊢
    simpa [or_assoc, or_comm, or_left_comm] using h
  | some template =>
    simp only [htemplate] at h ⊢
    exact .inl (List.mem_filterMap.mpr ⟨_, h, rfl⟩)

/-- The first closing delimiter in a marker is the one at its end. -/
theorem not_closesEarly {tag : Tag} {closing : List Char} {parts : List String} {body : String}
    (hclosing : closing ≠ []) (hparts : ∀ s ∈ parts, ¬closing <:+: s.toList)
    (hown : ∀ c ∈ tag.ownText, c ∉ closing) (hapart : tag.keepsApart closing = true)
    (hbody : tag.body parts = .ok body) : ¬Text.ClosesEarly closing body.toList := by
  rw [← Text.clear_iff_not_closesEarly []]
  simp only [keepsApart, Bool.and_eq_true] at hapart
  obtain ⟨⟨⟨hborder, hslots⟩, hspace⟩, hdot⟩ := hapart
  have hspace : tag.template? = none → ' ' ∉ closing := by
    intro hnone
    simpa [hnone] using hspace
  have hdot : .slot "key".toList ∈ tag.layout → '.' ∉ closing := by
    intro hkey
    rw [List.contains_eq_mem, decide_eq_true hkey] at hdot
    simpa using hdot
  have hchars (c : Char) (hc : .char c ∈ tag.layout) : c ∉ closing := by
    rcases mem_ownText hc with hc | ⟨hnone, rfl⟩
    · exact hown c hc
    · exact hspace hnone
  obtain ⟨vs, hvs, rfl⟩ : ∃ vs, tag.layout.mapM (Piece.value parts) = .ok vs ∧
      .ofList vs.flatten = body := by
    rw [body_eq_layout, assemble] at hbody
    cases hvs : tag.layout.mapM (Piece.value parts) with
    | error fault => simp [hvs, Except.map] at hbody
    | ok vs => exact ⟨vs, rfl, by simpa [hvs, Except.map] using hbody⟩
  rw [String.toList_ofList]
  exact (clear_pieces hclosing hparts hborder (mapM_eq_ok.mp hvs) hchars hdot hslots []).1

end Tag

namespace Buffer

variable {opening closing : List Char}

/-- A marker is cut out up to its first closing delimiter, and what comes behind that one stays. -/
theorem strip_marker (h : opening ≠ [] ∨ closing ≠ []) (ho : opening ≠ [])
    {pre body rest : List Char} (hpre : ∀ c ∈ pre, c ∉ opening) (hrest : ¬opening <:+: rest)
    (hbody : ¬Text.ClosesEarly closing body) :
    strip opening closing h (pre ++ (opening ++ (body ++ (closing ++ rest)))) = pre ++ rest := by
  have hclear := (Text.clear_iff_not_closesEarly rest).mpr hbody
  have hcut : Text.cutAt? closing (body ++ (closing ++ rest)) = some (body, rest) := by
    rw [Text.cutAt?_clear hclear, Text.cutAt?_append_self]
    simp
  rw [strip_clear h (Text.clear_of_not_mem ho hpre _),
    strip_of_some h (Text.cutAt?_append_self opening _) hcut,
    strip_of_none h (Text.cutAt?_eq_none_iff.mpr hrest)]
  rfl

/-- A marker that nothing was inserted at is cut out up to the first closing delimiter in it. The
parts of the key are checked for that delimiter one by one, so it may come before the end of the
marker where parts, separators and delimiter meet, and then the rest of the marker stays. Where the
tag keeps them apart, nothing stays of a marker. -/
theorem finish_unused_marker (options : GenerationOptions) (tag : Tag) (concept : Node)
    (marker pre post : String) (used : List String) (hopen : options.tagOpen ≠ "")
    (hclose : options.tagClose ≠ "") (hkeep : options.keepUnusedTags = false)
    (hown : ∀ c ∈ tag.ownText, c ∉ options.tagOpen.toList ∧ c ∉ options.tagClose.toList)
    (hmarker : tag.marker options concept = .ok marker)
    (hpre : ∀ c ∈ pre.toList, c ∉ options.tagOpen.toList ∧ c ∉ options.tagClose.toList)
    (hpost : ∀ c ∈ post.toList, c ∉ options.tagOpen.toList ∧ c ∉ options.tagClose.toList) :
    ∃ body, marker = options.tagOpen ++ body ++ options.tagClose ∧
      (∀ before after, body ++ options.tagClose = before ++ options.tagClose ++ after →
        ¬Text.ClosesEarly options.tagClose.toList before.toList →
        ¬options.tagOpen.toList <:+: after.toList ++ post.toList →
          finish ⟨options, pre ++ marker ++ post, used⟩ = pre ++ after ++ post) ∧
      (tag.keepsApart options.tagClose.toList = true →
        finish ⟨options, pre ++ marker ++ post, used⟩ = pre ++ post) := by
  obtain ⟨_, hparts, body, hbody, rfl⟩ := Tag.marker_eq_ok_iff.mp hmarker
  have ho : options.tagOpen.toList ≠ [] := by simpa using hopen
  have hc : options.tagClose.toList ≠ [] := by simpa using hclose
  have hcut (before after : String)
      (heq : body ++ options.tagClose = before ++ options.tagClose ++ after)
      (hearly : ¬Text.ClosesEarly options.tagClose.toList before.toList)
      (hrest : ¬options.tagOpen.toList <:+: after.toList ++ post.toList) :
      finish ⟨options, pre ++ (options.tagOpen ++ body ++ options.tagClose) ++ post, used⟩ =
        pre ++ after ++ post := by
    have hstrip := strip_marker (.inl ho) ho (fun c hm => (hpre c hm).1) hrest hearly
    have hsplit : options.tagOpen ++ body ++ options.tagClose =
        options.tagOpen ++ (before ++ options.tagClose ++ after) := by
      rw [String.append_assoc, heq]
    refine String.toList_inj.mp ?_
    rw [hsplit, finish, hkeep, if_neg Bool.false_ne_true, dif_pos (.inl ho), String.toList_ofList]
    simpa using hstrip
  refine ⟨body, rfl, hcut, fun hapart => ?_⟩
  have hearly := Tag.not_closesEarly hc (fun s hs => Text.contains_eq_false_iff.mp (hparts s hs).2)
    (fun c hm => (hown c hm).2) hapart hbody
  have hrest : ¬options.tagOpen.toList <:+: post.toList := by
    intro hin
    obtain ⟨c, hm⟩ := List.exists_mem_of_ne_nil _ ho
    exact (hpost c (hin.subset hm)).1 hm
  simpa using hcut body "" (by simp) hearly (by simpa using hrest)

/-- A page whose name ends like the beginning of the closing delimiter leaves nothing. Two parts that
make the delimiter where they meet leave what comes behind it. -/
theorem finish_unused_marker_page :
    finish ⟨{}, "(" ++ "/*<Page Body a>*>*/" ++ ")", []⟩ = "(" ++ ")" ∧
      finish ⟨{}, "(" ++ "/*<>*/x>*/" ++ ")", []⟩ = "(" ++ "x>*/" ++ ")" := by
  obtain ⟨_, _, _, hfinish⟩ := finish_unused_marker {}
    { type := "Page", name := "Body", discipline := .single } (Page.page "a>*")
    "/*<Page Body a>*>*/" "(" ")" [] (by decide) (by decide) rfl (by simp [Tag.ownText])
    (by decide +kernel) (by simp) (by simp)
  have hown : Tag.ownText ⟨"Page", "Body", .single, some "\x7b0\x7d\x7b1\x7d", none⟩ = [] := by
    decide +kernel
  obtain ⟨body, hmarker, hrest, _⟩ := finish_unused_marker {}
    ⟨"Page", "Body", .single, some "\x7b0\x7d\x7b1\x7d", none⟩
    (.mk { Page.type with members := [⟨"Book", .identifier, true, false⟩,
      ⟨"Name", .identifier, true, false⟩] } [some (.text ">*"), some (.text "/x")])
    "/*<>*/x>*/" "(" ")" [] (by decide) (by decide) rfl (by simp [hown]) (by decide +kernel)
    (by simp) (by simp)
  have hbody : body ++ ">*/" = "" ++ ">*/" ++ "x>*/" := by
    refine String.toList_inj.mp ?_
    simpa using (congrArg String.toList hmarker).symm
  have hearly : ¬Text.ClosesEarly ">*/".toList "".toList :=
    (Text.clear_iff_not_closesEarly []).mp trivial
  exact ⟨hfinish (by decide +kernel), hrest "" "x>*/" hbody hearly (by decide)⟩

/-- A bracket at the end of a name, and two parts of a key that make a delimiter where they meet,
leave a rest of the marker. -/
theorem finish_leaves_rest :
    (let tag : Tag := { type := "Page", name := "Body", discipline := .single }
      let options : GenerationOptions := { tagOpen := "[[", tagClose := "]]" }
      tag.marker options (Page.page "a]") = .ok "[[Page Body a]]]" ∧
        finish ⟨options, "(" ++ "[[Page Body a]]]" ++ ")", []⟩ = "(])") ∧
    (let tag : Tag := ⟨"Page", "Body", .single, some "\x7b0\x7d\x7b1\x7d", none⟩
      let type := { Page.type with members := [⟨"Book", .identifier, true, false⟩,
        ⟨"Name", .identifier, true, false⟩] }
      tag.marker {} (.mk type [some (.text ">*"), some (.text "/x")]) = .ok "/*<>*/x>*/" ∧
        finish ⟨{}, "(" ++ "/*<>*/x>*/" ++ ")", []⟩ = "(x>*/)") := by
  decide +kernel

end Buffer

end ConceptScript
