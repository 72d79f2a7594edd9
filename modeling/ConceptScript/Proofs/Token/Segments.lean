import ConceptScript.Proofs.Token.Names
import ConceptScript.Proofs.Token.Positions

namespace ConceptScript

/-- A path that a comment cuts off right behind a dot. -/
def Token.CutOff (token : Token) (after : List Char) : Prop :=
  ∃ front, front ≠ [] ∧ (∀ s ∈ front, isSegment s = true) ∧ token = .path (front ++ [""]) ∧
    Lexer.startsComment after = true

namespace Lexer

theorem segment_of_endsName {cs : List Char} (h : EndsName cs) : segment cs = ([], cs) := by
  cases cs with
  | nil => rfl
  | cons c cs =>
    have hstop : ¬(isWordCharacter c && !startsComment (c :: cs)) = true := by
      have hc := h c cs rfl
      cases hword : isWordCharacter c <;> simp_all
    rw [segment, if_neg hstop]

theorem not_isPrefix_of_segment {c d : Char} {cs : List Char}
    (h : startsComment (c :: cs) = false) (hd : d = '/' ∨ d = '*') :
    ¬['/', d] <+: c :: (segment cs).1 := by
  rintro ⟨more, hmore⟩
  obtain ⟨rfl, hsegment⟩ : '/' = c ∧ d :: more = (segment cs).1 := List.cons.inj hmore
  have hcs : cs = d :: (more ++ (segment cs).2) := by
    rw [← List.cons_append, hsegment, segment_append]
  rw [hcs] at h
  rcases hd with rfl | rfl <;> cases h

theorem not_infix_segment (cs : List Char) {d : Char} (hd : d = '/' ∨ d = '*') :
    ¬['/', d] <:+: (segment cs).1 := by
  fun_induction segment cs with
  | case1 => simp
  | case2 c cs h word rest heq ih =>
    rw [heq] at ih
    rw [Bool.and_eq_true, Bool.not_eq_true'] at h
    have hbegins := not_isPrefix_of_segment h.2 hd
    rw [heq] at hbegins
    rw [List.infix_cons_iff, not_or]
    exact ⟨hbegins, ih⟩
  | case3 => simp

theorem isSegment_segment {cs : List Char} (h : ¬EndsName cs) :
    Token.isSegment (.ofList (segment cs).1) = true := by
  have hne : (segment cs).1 ≠ [] := by
    intro hnil
    have hends := endsName_segment cs
    have hcs := segment_append cs
    rw [hnil, List.nil_append] at hcs
    exact h (hcs ▸ hends)
  rw [Token.isSegment_iff, String.toList_ofList]
  exact ⟨hne, isWordCharacter_of_mem_segment cs, not_infix_segment cs (.inl rfl),
    not_infix_segment cs (.inr rfl)⟩

theorem segments_of_endsName {c : Char} {cs : List Char} (h : EndsName (c :: cs))
    (hc : isWordCharacter c = true) : segments (c :: cs) = .ok ([""], c :: cs) := by
  refine segments_last (segment_of_endsName h) fun more heq => ?_
  obtain ⟨rfl, _⟩ := List.cons.inj heq
  cases hc

/-- All segments of a name can be written as they are, or a comment cuts off the last one. -/
theorem isSegment_of_segments {cs rest : List Char} {words : List String}
    (h : segments cs = .ok (words, rest)) (hcs : ¬EndsName cs) :
    (∀ w ∈ words, Token.isSegment w = true) ∨
      ∃ front, front ≠ [] ∧ (∀ w ∈ front, Token.isSegment w = true) ∧ words = front ++ [""] ∧
        startsComment rest = true := by
  refine segments_induction (P := fun cs words rest => ¬EndsName cs →
    (∀ w ∈ words, Token.isSegment w = true) ∨
      ∃ front, front ≠ [] ∧ (∀ w ∈ front, Token.isSegment w = true) ∧ words = front ++ [""] ∧
        startsComment rest = true) ?last ?dot h hcs
  case last =>
    intro cs _ hcs
    exact .inl (List.forall_mem_singleton.mpr (isSegment_segment hcs))
  case dot =>
    intro cs d tail words rest _ hd hmore ih hcs
    have hfirst := isSegment_segment hcs
    by_cases hends : EndsName (d :: tail)
    · rw [segments_of_endsName hends hd] at hmore
      obtain ⟨rfl, rfl⟩ := Prod.mk.inj (Except.ok.inj hmore)
      exact .inr ⟨[_], by simp, List.forall_mem_singleton.mpr hfirst, rfl, hends d tail rfl hd⟩
    · rcases ih hends with hall | ⟨front, _, hfront, rfl, hcomment⟩
      · exact .inl (List.forall_mem_cons.mpr ⟨hfirst, hall⟩)
      · exact .inr ⟨_ :: front, by simp, List.forall_mem_cons.mpr ⟨hfirst, hfront⟩, rfl, hcomment⟩

theorem exists_append_of_not_mem {c : Char} {word rest before after : List Char} (hc : c ∉ word)
    (h : word ++ rest = before ++ c :: after) : ∃ skipped, rest = skipped ++ c :: after := by
  rcases List.append_eq_append_iff.mp h with ⟨skipped, _, hrest⟩ | ⟨more, rfl, hmore⟩
  · exact ⟨skipped, hrest⟩
  · cases more with
    | nil => exact ⟨[], hmore.symm⟩
    | cons d more =>
      obtain ⟨rfl, _⟩ := List.cons.inj hmore
      exact absurd (by simp) hc

/-- Behind a dot in a name another segment begins, or a comment that ends the name. -/
theorem dot_of_segments {cs rest before after : List Char} {words : List String}
    (h : segments cs = .ok (words, rest)) (hdot : cs = before ++ '.' :: after)
    (hlength : rest.length ≤ after.length) :
    ¬EndsName after ∨ startsComment after = true ∧ after = rest := by
  have hword (cs : List Char) : '.' ∉ (segment cs).1 := fun hmem => by
    cases isWordCharacter_of_mem_segment cs '.' hmem
  refine segments_induction (P := fun cs _ rest => ∀ before, cs = before ++ '.' :: after →
    rest.length ≤ after.length → ¬EndsName after ∨ startsComment after = true ∧ after = rest)
    ?last ?dot h before hdot hlength
  case last =>
    intro cs _ before hdot hlength
    have hcs := (segment_append cs).trans hdot
    obtain ⟨skipped, hskipped⟩ := exists_append_of_not_mem (hword cs) hcs
    rw [hskipped, List.length_append, List.length_cons] at hlength
    omega
  case dot =>
    intro cs d tail words rest heq hd hmore ih before hdot hlength
    have hcs := (segment_append cs).trans hdot
    rw [heq] at hcs
    obtain ⟨skipped, hskipped⟩ := exists_append_of_not_mem (hword cs) hcs
    cases skipped with
    | nil =>
      obtain ⟨_, rfl⟩ := List.cons.inj hskipped
      by_cases hends : EndsName (d :: tail)
      · rw [segments_of_endsName hends hd] at hmore
        exact .inr ⟨hends d tail rfl hd, (Prod.mk.inj (Except.ok.inj hmore)).2⟩
      · exact .inl hends
    | cons e skipped => exact ih skipped (List.cons.inj hskipped).2 hlength

theorem isWritable_nameToken {words : List String} (hne : words ≠ [])
    (h : ∀ w ∈ words, Token.isSegment w = true) : (nameToken words).isWritable = true := by
  match words, hne with
  | [w], _ => exact h w List.mem_cons_self
  | w :: w' :: words, _ => simpa [nameToken, Token.isWritable] using h

theorem nameToken_cutOff {front : List String} (hne : front ≠ []) :
    nameToken (front ++ [""]) = .path (front ++ [""]) := by
  match front, hne with
  | [w], _ => rfl
  | w :: w' :: front, _ => rfl

theorem isName_nameToken (words : List String) : (nameToken words).IsName := by
  unfold nameToken
  split
  · exact .inl ⟨_, rfl⟩
  · exact .inr ⟨_, rfl⟩

theorem plain_of_punctuation {c : Char} {token : Token} (h : punctuation c = some token) :
    ¬token.IsName ∧ ∀ chars, token.Spelled chars → '.' ∉ chars := by
  unfold punctuation at h
  split at h <;> cases h <;> refine ⟨by simp [Token.IsName], fun chars hchars => ?_⟩ <;>
    cases hchars <;> simp

/-- What a piece says of its token, and of the dots in it. -/
structure Piece.Named (token : Token) (chars rest : List Char) : Prop where
  writable : token.IsName → token.isWritable = true ∨ token.CutOff rest
  dotted : (∀ s, token ≠ .quoted s) → ∀ before after, chars = before ++ '.' :: after →
    token.IsName ∧ (¬EndsName (after ++ rest) ∨ startsComment rest = true ∧ after = [])

theorem named_of_piece {c : Char} {cs chars rest : List Char} {token : Token}
    (h : piece c cs = .ok (⟨chars, some token⟩, rest)) : Piece.Named token chars rest := by
  have hchars : chars ++ rest = c :: cs := piece_append h
  obtain ⟨hspelled, hname⟩ : token.Spelled chars ∧
      (token.IsName → EndsName rest ∧ ¬EndsName (chars ++ rest)) := by
    cases written_of_piece h with
    | token hspelled hname => exact ⟨hspelled, hname⟩
  rcases token_cases h rfl with ⟨s, rfl⟩ | hmark | ⟨words, hwords, rfl⟩
  · exact ⟨fun hisName => by simp [Token.IsName] at hisName, fun hquoted => absurd rfl (hquoted s)⟩
  · obtain ⟨hplain, hdots⟩ := plain_of_punctuation hmark
    refine ⟨fun hisName => absurd hisName hplain, ?_⟩
    rintro _ before after rfl
    exact absurd (by simp) (hdots _ hspelled)
  · have hisName := isName_nameToken words
    have hstart : ¬EndsName (c :: cs) := hchars ▸ (hname hisName).2
    refine ⟨fun _ => ?_, fun _ before after hdot => ⟨hisName, ?_⟩⟩
    · rcases isSegment_of_segments hwords hstart with hall | ⟨front, hne, hfront, rfl, hcomment⟩
      · obtain ⟨more, rfl⟩ := eq_cons_of_segments hwords
        exact .inl (isWritable_nameToken (by simp) hall)
      · exact .inr ⟨front, hne, hfront, nameToken_cutOff hne, hcomment⟩
    · have htext : c :: cs = before ++ '.' :: (after ++ rest) := by
        rw [← hchars, hdot, List.append_assoc, List.cons_append]
      refine (dot_of_segments hwords htext (by simp)).imp_right fun hcomment => ?_
      obtain rfl : after = [] := List.append_left_eq_self.mp hcomment.2
      exact ⟨hcomment.1, rfl⟩

theorem forall_slices {P : Token → List Char → List Char → Prop}
    (hpiece : ∀ {c cs chars token rest}, piece c cs = .ok (⟨chars, some token⟩, rest) →
      P token chars rest)
    {text front cs : List Char} {tokens : List Lexeme} (htext : text = front ++ cs)
    (h : lexemes (byteLength front) cs = .ok tokens) :
    ∀ l ∈ tokens, l.token ≠ .endOfScript → ∃ before slice after,
      Slices text l.span before slice after ∧ P l.token slice after := by
  refine lexemes_induction (P := fun offset cs tokens => ∀ front, byteLength front = offset →
    text = front ++ cs → ∀ l ∈ tokens, l.token ≠ .endOfScript → ∃ before slice after,
      Slices text l.span before slice after ∧ P l.token slice after) ?finish ?step h front rfl htext
  case finish => simp
  case step =>
    rintro _ c cs ⟨chars, token?⟩ rest more hp ih front rfl htext
    rw [← piece_append hp, ← List.append_assoc] at htext
    have hrest := ih (front ++ chars) (byteLength_append front chars) htext
    cases token? with
    | none => exact hrest
    | some token =>
      refine List.forall_mem_cons.mpr ⟨fun _ => ?_, hrest⟩
      exact ⟨front, chars, rest, ⟨htext, rfl, (byteLength_append _ _).symm⟩, hpiece hp⟩

theorem Slices.exists_append {text before slice after front rest : List Char} {span : Span}
    {c : Char} (h : Slices text span before slice after) (htext : text = front ++ c :: rest)
    (hstart : span.start ≤ byteLength front) (hstop : byteLength front < span.stop) :
    ∃ left right, slice = left ++ c :: right ∧ front = before ++ left ∧ rest = right ++ after := by
  rw [h.start_eq] at hstart
  rw [h.stop_eq] at hstop
  rcases List.append_eq_append_iff.mp (htext.symm.trans h.text_eq) with
    ⟨more, hmore, hrest⟩ | ⟨beyond, rfl, _⟩
  · cases more with
    | nil =>
      rw [hmore, List.append_nil] at hstop
      omega
    | cons d right =>
      obtain ⟨rfl, rfl⟩ := List.cons.inj hrest
      rcases List.append_eq_append_iff.mp hmore with ⟨left, rfl, rfl⟩ | ⟨short, rfl, hslice⟩
      · exact ⟨left, right, rfl, rfl, rfl⟩
      · have hshort : short = [] := by
          by_contra hne
          have hpos := byteLength_pos hne
          rw [byteLength_append] at hstart
          omega
        subst hshort
        exact ⟨[], right, hslice.symm, by simp, rfl⟩
  · rw [byteLength_append (before ++ slice)] at hstop
    omega

/-- Every place of a text is in a token, or in a stretch of blanks and comments clear of tokens. -/
theorem Laid.covers {text front : List Char} {tokens : List Lexeme} (h : Laid text front tokens)
    {offset : Nat} (hfront : byteLength front ≤ offset) (htext : offset < byteLength text) :
    (∃ l ∈ tokens, l.span.start ≤ offset ∧ offset < l.span.stop) ∨
      ∃ start stop, Between text start stop ∧ start ≤ offset ∧ offset < stop ∧
        byteLength front ≤ start ∧ ∀ l ∈ tokens, l.span.stop ≤ start ∨ stop ≤ l.span.start := by
  have hopening := h.opening
  induction h with
  | finish =>
    refine .inr ⟨_, _, hopening _ rfl, hfront, htext, Nat.le_refl _, ?_⟩
    simp
  | @token front gap slice rest token more _ _ _ _ _ hmore ih =>
    have hlater := hmore.le_start
    by_cases hgap : offset < byteLength (front ++ gap)
    · refine .inr ⟨_, _, hopening _ rfl, hfront, hgap, Nat.le_refl _, ?_⟩
      refine List.forall_mem_cons.mpr ⟨.inr (Nat.le_refl _), fun l hl => .inr ?_⟩
      have hl := hlater l hl
      rw [byteLength_append] at hl
      exact Nat.le_of_add_right_le hl
    · by_cases hslice : offset < byteLength (front ++ gap ++ slice)
      · exact .inl ⟨_, List.mem_cons_self, Nat.le_of_not_lt hgap, hslice⟩
      · rcases ih (Nat.le_of_not_lt hslice) hmore.opening with
          ⟨l, hl, hcovers⟩ | ⟨start, stop, hbetween, hstart, hstop, hfirst, hclear⟩
        · exact .inl ⟨l, List.mem_cons_of_mem _ hl, hcovers⟩
        · refine .inr ⟨start, stop, hbetween, hstart, hstop, ?_,
            List.forall_mem_cons.mpr ⟨.inl hfirst, hclear⟩⟩
          rw [byteLength_append, byteLength_append] at hfirst
          omega

/-- The names of a text and its dots. -/
structure Segmented (text : List Char) (tokens : List Lexeme) : Prop where
  /-- A name can be written as it is, or a comment cuts it off. -/
  writable : ∀ l ∈ tokens, l.token.IsName → ∃ before slice after,
    Slices text l.span before slice after ∧ (l.token.isWritable = true ∨ l.token.CutOff after)
  /-- A dot in a token stands in a literal, or in a name that goes on right behind the dot, or that
  ends there with a comment behind it. -/
  dotted : ∀ front rest, text = front ++ '.' :: rest → ∀ l ∈ tokens,
    l.span.start ≤ byteLength front → byteLength front < l.span.stop →
      (∃ s, l.token = .quoted s) ∨ l.token.IsName ∧
        (¬EndsName rest ∨ startsComment rest = true ∧ l.span.stop = byteLength front + 1)
  /-- What is in no token is skipped. -/
  skipped : ∀ offset, offset < byteLength text →
    (∃ l ∈ tokens, l.span.start ≤ offset ∧ offset < l.span.stop) ∨
      ∃ start stop, Between text start stop ∧ start ≤ offset ∧ offset < stop ∧
        ∀ l ∈ tokens, l.span.stop ≤ start ∨ stop ≤ l.span.start

end Lexer

theorem Script.isSegment_of_lex {script : Script} {tokens : List Lexeme}
    (h : script.lex = .ok tokens) {l : Lexeme} (hl : l ∈ tokens) {w : String}
    (hw : l.token = .word w) : Token.isSegment w = true := by
  have hwords : ∀ l ∈ tokens, ∀ w, l.token = .word w → Token.isSegment w = true := by
    refine Lexer.forall_lexemes (P := fun token => ∀ w, token = .word w → Token.isSegment w = true)
      (by simp) ?_ (lex_eq_ok.mp h)
    rintro c cs ⟨chars, _⟩ rest hpiece token rfl w rfl
    rcases (Lexer.named_of_piece hpiece).writable (.inl ⟨w, rfl⟩) with hwritable | ⟨_, _, _, heq, _⟩
    · exact hwritable
    · cases heq
  exact hwords l hl w hw

/-- The names of a script can be written as they are, and a word comes right behind every dot that
is in no literal and no comment. Only where a comment is right behind such a dot, the dot is taken
too, and the path ends with an empty segment. -/
theorem Script.lex_segmented {script : Script} {tokens : List Lexeme}
    (h : script.lex = .ok tokens) : Lexer.Segmented script.chars tokens := by
  have hlexemes : Lexer.lexemes (Lexer.byteLength []) script.chars = .ok tokens := lex_eq_ok.mp h
  have htext : script.chars = [] ++ script.chars := rfl
  have hlaid := Lexer.laid_of_lexemes htext hlexemes
  have hslices := Lexer.forall_slices Lexer.named_of_piece htext hlexemes
  refine ⟨fun l hl hname => ?_, fun front rest hdot l hl hstart hstop => ?_,
    fun offset hoffset => ?_⟩
  · have hne : l.token ≠ .endOfScript := by
      intro heq
      simp [heq, Token.IsName] at hname
    obtain ⟨before, slice, after, hslice, hnamed⟩ := hslices l hl hne
    exact ⟨before, slice, after, hslice, hnamed.writable hname⟩
  · have hne : l.token ≠ .endOfScript := by
      obtain ⟨ts, rfl, hts⟩ := hlaid.ended
      rcases List.mem_append.mp hl with hl | hl
      · exact hts l hl
      · rw [List.mem_singleton.mp hl] at hstart hstop
        exact absurd hstop (Nat.not_lt.mpr hstart)
    obtain ⟨before, slice, after, hslice, hnamed⟩ := hslices l hl hne
    by_cases hquoted : ∃ s, l.token = .quoted s
    · exact .inl hquoted
    · obtain ⟨left, right, rfl, rfl, rfl⟩ := hslice.exists_append hdot hstart hstop
      obtain ⟨hname, hbehind⟩ := hnamed.dotted (not_exists.mp hquoted) left right rfl
      refine .inr ⟨hname, hbehind.imp_right ?_⟩
      rintro ⟨hcomment, rfl⟩
      refine ⟨hcomment, ?_⟩
      rw [hslice.stop_eq, ← List.append_assoc, Lexer.byteLength_append _ ['.']]
      rfl
  · rcases hlaid.covers (Nat.zero_le offset) hoffset with
      hcovers | ⟨start, stop, hbetween, hstart, hstop, _, hclear⟩
    · exact .inl hcovers
    · exact .inr ⟨start, stop, hbetween, hstart, hstop, hclear⟩

namespace Small

def cutOff : Script := .ofText "small.script" "é.b c.d.// e.f"

def cutOffTokens : List Lexeme :=
  [⟨.path ["é", "b"], 0, 4⟩, ⟨.path ["c", "d", ""], 5, 9⟩, ⟨.endOfScript, 15, 15⟩]

end Small

theorem Script.lex_segmented_cutOff : Small.cutOff.lex = .ok Small.cutOffTokens ∧
    Lexer.Segmented Small.cutOff.chars Small.cutOffTokens := by
  have h : Small.cutOff.lex = .ok Small.cutOffTokens := by decide +kernel
  exact ⟨h, lex_segmented h⟩

/-- A segment can be empty, and a dot can be taken with no word behind it. -/
theorem Script.lex_empty_segment :
    (Script.ofText "small.script" "a.//b").lex =
        .ok [⟨.path ["a", ""], 0, 2⟩, ⟨.endOfScript, 5, 5⟩] ∧
      Token.isSegment "" = false ∧ (Token.path ["a", ""]).isWritable = false := by
  decide +kernel

end ConceptScript
