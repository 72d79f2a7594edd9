import Mathlib.Data.List.Chain
import ConceptScript.Proofs.Token.Spelling

namespace ConceptScript.Lexer

theorem byteLength_pos {cs : List Char} (h : cs ≠ []) : 0 < byteLength cs := by
  obtain ⟨c, cs, rfl⟩ := List.exists_cons_of_ne_nil h
  have hc := c.utf8Size_pos
  rw [byteLength_cons]
  omega

/-- The tokens of a text behind the front of it, and what is between them. -/
inductive Laid (text : List Char) : List Char → List Lexeme → Prop
  | finish {front gap : List Char} : text = front ++ gap → Skipped gap [] →
      Laid text front [⟨.endOfScript, byteLength text, byteLength text⟩]
  | token {front gap slice rest : List Char} {token : Token} {more : List Lexeme} :
      text = front ++ gap ++ slice ++ rest → Skipped gap (slice ++ rest) → slice ≠ [] →
      token.Spelled slice → (token.IsName → EndsName rest ∧ ¬EndsName (slice ++ rest)) →
      Laid text (front ++ gap ++ slice) more →
      Laid text front
        (⟨token, byteLength (front ++ gap), byteLength (front ++ gap ++ slice)⟩ :: more)

variable {text front : List Char} {tokens : List Lexeme}

theorem Laid.skip {chars rest : List Char} (h : Laid text (front ++ chars) tokens)
    (htext : text = front ++ chars ++ rest) (hchars : Piece.Written ⟨chars, none⟩ rest) :
    Laid text front tokens := by
  cases h with
  | @finish _ gap hgap hskipped =>
    obtain rfl : rest = gap := List.append_cancel_left (htext.symm.trans hgap)
    rw [← List.append_nil rest] at hchars
    exact .finish (by rw [htext, List.append_assoc]) (hchars.skipped hskipped)
  | @token _ gap slice after token more hslice hskipped hne hspelled hname hmore =>
    rw [List.append_assoc front chars gap] at hslice hmore ⊢
    have hrest : front ++ chars ++ rest = front ++ chars ++ (gap ++ (slice ++ after)) := by
      rw [← htext, hslice]
      simp only [List.append_assoc]
    rw [List.append_cancel_left hrest] at hchars
    exact .token hslice (hchars.skipped hskipped) hne hspelled hname hmore

theorem laid_of_lexemes {cs : List Char} (htext : text = front ++ cs)
    (h : lexemes (byteLength front) cs = .ok tokens) : Laid text front tokens := by
  refine lexemes_induction (P := fun offset cs tokens => ∀ front, byteLength front = offset →
    text = front ++ cs → Laid text front tokens) ?finish ?step h front rfl htext
  case finish =>
    rintro _ front rfl htext
    rw [List.append_nil] at htext
    rw [← htext]
    exact .finish (by simp) .nil
  case step =>
    rintro _ c cs ⟨chars, token?⟩ rest more hpiece ih front rfl htext
    have hwritten := written_of_piece hpiece
    rw [← piece_append hpiece, ← List.append_assoc] at htext
    have hlaid := ih (front ++ chars) (byteLength_append front chars) htext
    cases token? with
    | none => exact hlaid.skip htext hwritten
    | some token =>
      cases hwritten with
      | token hspelled hname =>
        rw [← List.append_nil front] at htext hlaid
        have htoken := Laid.token htext .nil (ne_nil_of_piece hpiece) hspelled hname hlaid
        rwa [List.append_nil, byteLength_append] at htoken

/-- The stretch of a text that a span stands for. Both ends of the span are between characters. -/
structure Slices (text : List Char) (span : Span) (before slice after : List Char) : Prop where
  text_eq : text = before ++ slice ++ after
  start_eq : span.start = byteLength before
  stop_eq : span.stop = byteLength (before ++ slice)

/-- Blanks and whole comments only stand between two offsets. -/
def Between (text : List Char) (start stop : Nat) : Prop :=
  ∃ before gap after, Slices text ⟨start, stop⟩ before gap after ∧ Skipped gap after

/-- Tokens that account for all of a text. -/
structure Placed (text : List Char) (tokens : List Lexeme) : Prop where
  /-- The end of the script is where the text ends, and no other token is the end. -/
  ended : ∃ ts, tokens = ts ++ [⟨.endOfScript, byteLength text, byteLength text⟩] ∧
    ∀ l ∈ ts, l.token ≠ .endOfScript
  spelled : ∀ l ∈ tokens, l.token ≠ .endOfScript → l.span.start < l.span.stop ∧
    ∃ before slice after, Slices text l.span before slice after ∧ l.token.Spelled slice
  ordered : tokens.Pairwise fun a b => a.span.start < b.span.start ∧ a.span.stop ≤ b.span.start
  opening : ∀ l ∈ tokens.head?, Between text 0 l.span.start
  between : tokens.IsChain fun a b => Between text a.span.stop b.span.start ∧
    (a.token.IsName → b.token.IsName → a.span.stop < b.span.start)

theorem Laid.ended (h : Laid text front tokens) :
    ∃ ts, tokens = ts ++ [⟨.endOfScript, byteLength text, byteLength text⟩] ∧
      ∀ l ∈ ts, l.token ≠ .endOfScript := by
  induction h with
  | finish => exact ⟨[], rfl, by simp⟩
  | token _ _ _ hspelled _ _ ih =>
    obtain ⟨ts, rfl, hts⟩ := ih
    refine ⟨_, List.cons_append.symm, List.forall_mem_cons.mpr ⟨?_, hts⟩⟩
    rintro rfl
    cases hspelled

theorem Laid.spelled (h : Laid text front tokens) :
    ∀ l ∈ tokens, l.token ≠ .endOfScript → l.span.start < l.span.stop ∧
      ∃ before slice after, Slices text l.span before slice after ∧ l.token.Spelled slice := by
  induction h with
  | finish => simp
  | token htext _ hne hspelled _ _ ih =>
    refine List.forall_mem_cons.mpr ⟨fun _ => ⟨?_, _, _, _, ⟨htext, rfl, rfl⟩, hspelled⟩, ih⟩
    have hslice := byteLength_pos hne
    simp only [byteLength_append]
    omega

theorem Laid.le_start (h : Laid text front tokens) :
    ∀ l ∈ tokens, byteLength front ≤ l.span.start := by
  induction h with
  | finish htext => simp [htext]
  | token _ _ _ _ _ _ ih =>
    refine List.forall_mem_cons.mpr ⟨by simp, fun l hl => ?_⟩
    have hl := ih l hl
    simp only [byteLength_append] at hl
    omega

theorem Laid.ordered (h : Laid text front tokens) :
    tokens.Pairwise fun a b => a.span.start < b.span.start ∧ a.span.stop ≤ b.span.start := by
  induction h with
  | finish => simp
  | token _ _ hne _ _ hmore ih =>
    refine .cons (fun l hl => ?_) ih
    have hslice := byteLength_pos hne
    have hstop := hmore.le_start l hl
    refine ⟨?_, hstop⟩
    rw [byteLength_append] at hstop
    simp only
    omega

theorem Laid.opening (h : Laid text front tokens) :
    ∀ l ∈ tokens.head?, Between text (byteLength front) l.span.start := by
  cases h with
  | finish htext hgap =>
    rintro _ ⟨⟩
    exact ⟨_, _, [], ⟨by simp [htext], rfl, by rw [htext]⟩, hgap⟩
  | token htext hgap =>
    rintro _ ⟨⟩
    exact ⟨_, _, _, ⟨by simp [htext], rfl, rfl⟩, hgap⟩

theorem Laid.separate {cs : List Char} (h : Laid text front tokens) (htext : text = front ++ cs)
    (hends : EndsName cs) :
    ∀ l ∈ tokens.head?, l.token.IsName → byteLength front < l.span.start := by
  cases h with
  | finish =>
    rintro _ ⟨⟩ hname
    simp [Token.IsName] at hname
  | @token _ gap slice rest token more hslice _ _ _ hname _ =>
    rintro _ ⟨⟩ hisName
    have hgap : gap ≠ [] := by
      rintro rfl
      rw [List.append_nil, List.append_assoc, htext] at hslice
      rw [List.append_cancel_left hslice] at hends
      exact (hname hisName).2 hends
    rw [byteLength_append]
    exact Nat.lt_add_of_pos_right (byteLength_pos hgap)

theorem Laid.between (h : Laid text front tokens) :
    tokens.IsChain fun a b => Between text a.span.stop b.span.start ∧
      (a.token.IsName → b.token.IsName → a.span.stop < b.span.start) := by
  induction h with
  | finish => exact .singleton _
  | token htext _ _ _ hname hmore ih =>
    exact ih.cons fun l hl =>
      ⟨hmore.opening l hl, fun hisName => hmore.separate htext (hname hisName).1 l hl⟩

end ConceptScript.Lexer

namespace ConceptScript

/-- Nothing of a script is lost in its tokens but blanks and comments. -/
theorem Script.lex_placed {script : Script} {tokens : List Lexeme}
    (h : script.lex = .ok tokens) : Lexer.Placed script.chars tokens := by
  have hlaid : Lexer.Laid script.chars [] tokens := Lexer.laid_of_lexemes rfl (lex_eq_ok.mp h)
  exact ⟨hlaid.ended, hlaid.spelled, hlaid.ordered, hlaid.opening, hlaid.between⟩

namespace Small

/-- Two names, a comment right behind the second, a literal with an escape, and a comment that the
end of the script ends. -/
def commented : Script := .ofText "small.script" "é.b c/*//*/ 'a\\n' \x7b // d"

def commentedTokens : List Lexeme :=
  [⟨.path ["é", "b"], 0, 4⟩, ⟨.word "c", 5, 6⟩, ⟨.quoted "a\n", 13, 18⟩, ⟨.openBrace, 19, 20⟩,
    ⟨.endOfScript, 25, 25⟩]

end Small

theorem Script.lex_placed_commented : Small.commented.lex = .ok Small.commentedTokens ∧
    Lexer.Placed Small.commented.chars Small.commentedTokens := by
  have h : Small.commented.lex = .ok Small.commentedTokens := by decide +kernel
  exact ⟨h, lex_placed h⟩

end ConceptScript
