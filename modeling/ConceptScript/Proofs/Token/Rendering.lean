import ConceptScript.Proofs.Text.Delimited
import ConceptScript.Proofs.Text.Occurrence
import ConceptScript.Proofs.Token.Lexemes

namespace ConceptScript

namespace Token

/-- A part of a name that is read as it is written: without blanks, special characters and
beginnings of comments. -/
def isSegment (s : String) : Bool :=
  !s.toList.isEmpty &&
    (s.toList.all fun c => !Text.isBlank c && !"\x7b\x7d[];\"'.".toList.contains c) &&
    !Text.contains s "//" && !Text.contains s "/*"

/-- A token that a text can have, with names that are read as they are written. -/
def isWritable : Token → Bool
  | .word w => isSegment w
  | .path segments => decide (2 ≤ segments.length) && segments.all isSegment
  | .endOfScript => false
  | _ => true

def escape : List Char → List Char
  | [] => []
  | c :: cs => if c = '"' ∨ c = '\\' then '\\' :: c :: escape cs else c :: escape cs

def render : Token → String
  | .word w => w
  | .path segments => ".".intercalate segments
  | .quoted s => "\"" ++ .ofList (escape s.toList) ++ "\""
  | .openBrace => "\x7b"
  | .closeBrace => "\x7d"
  | .openBracket => "["
  | .closeBracket => "]"
  | .semicolon => ";"
  | .endOfScript => ""

/-- The tokens with a space between each two. -/
def renderAll (tokens : List Token) : String := " ".intercalate (tokens.map render)

theorem isSegment_iff {s : String} : isSegment s = true ↔
    s.toList ≠ [] ∧ (∀ c ∈ s.toList, Lexer.isWordCharacter c = true) ∧
      ¬['/', '/'] <:+: s.toList ∧ ¬['/', '*'] <:+: s.toList := by
  have hchar (c : Char) : (!Text.isBlank c && !"\x7b\x7d[];\"'.".toList.contains c) =
      Lexer.isWordCharacter c := by
    have hspecial : "\x7b\x7d[];\"'.".toList.contains c = Lexer.isSpecial c := by
      simp [Lexer.isSpecial, Bool.or_assoc, beq_eq_decide]
    rw [hspecial, Lexer.isWordCharacter]
  simp only [isSegment, hchar, Bool.and_eq_true, Bool.not_eq_true', Text.contains_eq_false_iff,
    List.isEmpty_eq_false_iff, List.all_eq_true, and_assoc]
  rfl

end Token

namespace Lexer

open Text (Follows)

theorem second_ne {c d : Char} {cs rest more : List Char} (h : ¬[c, d] <:+: c :: cs)
    (hd : d ∉ ['.', ' ']) (hrest : Follows ['.', ' '] rest) : cs ++ rest ≠ d :: more := by
  intro heq
  cases cs with
  | nil =>
    rw [List.nil_append] at heq
    exact hd (hrest d (by simp [heq]))
  | cons e cs =>
    obtain ⟨rfl, _⟩ := List.cons.inj heq
    exact h (List.prefix_append [c, e] cs).isInfix

theorem startsComment_of_segment {c : Char} {cs rest : List Char}
    (hslashes : ¬['/', '/'] <:+: c :: cs) (hstar : ¬['/', '*'] <:+: c :: cs)
    (hrest : Follows ['.', ' '] rest) : startsComment (c :: (cs ++ rest)) = false := by
  unfold startsComment
  split
  · next more heq =>
    obtain ⟨rfl, hmore⟩ := List.cons.inj heq
    exact absurd hmore (second_ne hslashes (by decide) hrest)
  · next more heq =>
    obtain ⟨rfl, hmore⟩ := List.cons.inj heq
    exact absurd hmore (second_ne hstar (by decide) hrest)
  · rfl

theorem segment_of_follows {w : String} {rest : List Char} (hw : Token.isSegment w = true)
    (hrest : Follows ['.', ' '] rest) : segment (w.toList ++ rest) = (w.toList, rest) := by
  obtain ⟨_, hword, hslashes, hstar⟩ := Token.isSegment_iff.mp hw
  clear hw
  generalize w.toList = cs at hword hslashes hstar
  induction cs with
  | nil =>
    cases rest with
    | nil => rfl
    | cons c rest =>
      have hc : isWordCharacter c = false := by
        rcases List.mem_cons.mp (hrest c rfl) with rfl | hc
        · rfl
        · rw [List.mem_singleton.mp hc]
          rfl
      simp [segment, hc]
  | cons c cs ih =>
    obtain ⟨hc, hcs⟩ := List.forall_mem_cons.mp hword
    have hcomment := startsComment_of_segment hslashes hstar hrest
    have hmore := ih hcs (fun h => hslashes (List.infix_cons h)) fun h => hstar (List.infix_cons h)
    rw [List.cons_append, segment, hc, hcomment, hmore]
    rfl

theorem exists_cons_of_segment {w : String} (hw : Token.isSegment w = true) :
    ∃ c cs, w.toList = c :: cs ∧ isWordCharacter c = true := by
  obtain ⟨hne, hword, _⟩ := Token.isSegment_iff.mp hw
  obtain ⟨c, cs, hcs⟩ := List.exists_cons_of_ne_nil hne
  exact ⟨c, cs, hcs, hword c (by simp [hcs])⟩

theorem segments_of_follows {words : List String} {rest : List Char} (hne : words ≠ [])
    (hwords : ∀ w ∈ words, Token.isSegment w = true) (hrest : Follows [' '] rest) :
    segments ((".".intercalate words).toList ++ rest) = .ok (words, rest) := by
  induction words with
  | nil => exact absurd rfl hne
  | cons w words ih =>
    obtain ⟨hw, hmore⟩ := List.forall_mem_cons.mp hwords
    cases words with
    | nil =>
      have hsegment := segment_of_follows hw (hrest.mono (by simp))
      have hdot (more : List Char) : rest ≠ '.' :: more := by
        rintro rfl
        exact absurd (hrest '.' rfl) (by decide)
      rw [String.intercalate_singleton, segments_last hsegment hdot, String.ofList_toList]
    | cons w' words =>
      -- The segment after the dot begins with a character of a name, so the dot joins the two.
      obtain ⟨d, ds, hd, hword⟩ := exists_cons_of_segment (hmore w' List.mem_cons_self)
      have htext : ∃ ds', (".".intercalate (w' :: words)).toList ++ rest = d :: ds' := by
        cases words <;> simp [hd]
      obtain ⟨ds', htext⟩ := htext
      have hsegment := segment_of_follows hw
        (.cons List.mem_cons_self (d :: ds') : Follows ['.', ' '] ('.' :: d :: ds'))
      have hnext := ih (by simp) hmore
      rw [htext] at hnext
      have hcons : (".".intercalate (w :: w' :: words)).toList ++ rest =
          w.toList ++ '.' :: d :: ds' := by
        rw [String.intercalate_cons_cons, ← htext]
        simp
      rw [hcons, segments_dot hsegment hword hnext, String.ofList_toList]

theorem literalBody_escape (cs rest : List Char) :
    literalBody '"' (Token.escape cs ++ '"' :: rest) = .ok (Token.escape cs, rest) := by
  induction cs with
  | nil => rfl
  | cons c cs ih =>
    unfold Token.escape
    split
    · rw [List.cons_append, List.cons_append, literalBody, ih]
      rfl
    · next hc =>
      obtain ⟨hquote, hslash⟩ := not_or.mp hc
      rw [List.cons_append, literalBody_cons hslash, if_neg hquote, ih]
      rfl

theorem unescape_cons {c : Char} (h : c ≠ '\\') (cs : List Char) :
    unescape (c :: cs) = c :: unescape cs := by
  rw [unescape.eq_def]
  split <;> simp_all

theorem unescape_escape (cs : List Char) : unescape (Token.escape cs) = cs := by
  induction cs with
  | nil => rfl
  | cons c cs ih =>
    unfold Token.escape
    split
    · next hc =>
      rcases hc with rfl | rfl
      · rw [unescape, ih]
      · rw [unescape, ih]
    · next hc => rw [unescape_cons (not_or.mp hc).2, ih]

/-- The text is read as the token, and the reading goes on behind it. -/
def Reads (text : List Char) (token : Token) : Prop :=
  ∀ rest, Follows [' '] rest → ∃ c cs, text ++ rest = c :: cs ∧ Text.isBlank c = false ∧
    piece c cs = .ok (⟨text, some token⟩, rest)

theorem piece_of_word {c : Char} {cs : List Char} (hc : isWordCharacter c = true)
    (hcomment : startsComment (c :: cs) = false) : piece c cs = name (c :: cs) := by
  simp only [isWordCharacter, Bool.and_eq_true, Bool.not_eq_true'] at hc
  obtain ⟨hblank, hspecial⟩ := hc
  have hpunctuation : punctuation c = none := by
    unfold punctuation
    split <;> simp_all [isSpecial]
  simp only [isSpecial, Bool.or_eq_false_iff, beq_eq_false_iff_ne] at hspecial
  simp [piece_of_not_comment hcomment, hblank, hpunctuation, hspecial]

theorem reads_name {words : List String} (hne : words ≠ [])
    (hwords : ∀ w ∈ words, Token.isSegment w = true) :
    Reads (".".intercalate words).toList (nameToken words) := by
  intro rest hrest
  obtain ⟨w, more, rfl⟩ := List.exists_cons_of_ne_nil hne
  obtain ⟨hw, _⟩ := List.forall_mem_cons.mp hwords
  obtain ⟨c, cs, hcs, hc⟩ := exists_cons_of_segment hw
  obtain ⟨_, _, hslashes, hstar⟩ := Token.isSegment_iff.mp hw
  have hsegments := segments_of_follows hne hwords hrest
  have htext : (".".intercalate (w :: more)).toList ++ rest =
      c :: (cs ++ Text.joinRest '.' (more.map String.toList) rest) := by
    rw [String.toList_intercalate, List.map_cons, hcs, ← List.cons_append]
    exact Text.intercalate_cons_append '.' (c :: cs) _ rest
  refine ⟨c, _, htext, ?_, ?_⟩
  · simp only [isWordCharacter, Bool.and_eq_true, Bool.not_eq_true'] at hc
    exact hc.1
  · rw [hcs] at hslashes hstar
    rw [htext] at hsegments
    rw [piece_of_word hc (startsComment_of_segment hslashes hstar (Text.follows_joinRest hrest _)),
      name, hsegments]

theorem reads_quoted (s : String) : Reads (Token.render (.quoted s)).toList (.quoted s) := by
  intro rest _
  have htext : (Token.render (.quoted s)).toList = '"' :: (Token.escape s.toList ++ ['"']) := by
    simp [Token.render]
  refine ⟨'"', Token.escape s.toList ++ '"' :: rest, by simp [htext], rfl, ?_⟩
  have hliteral : piece '"' (Token.escape s.toList ++ '"' :: rest) =
      literal '"' (Token.escape s.toList ++ '"' :: rest) := rfl
  rw [hliteral, literal, literalBody_escape, ok_bind]
  dsimp only
  rw [unescape_escape, String.ofList_toList, htext]
  rfl

theorem reads_render {token : Token} (h : token.isWritable = true) :
    Reads token.render.toList token := by
  cases token with
  | word w =>
    have hreads := reads_name (List.cons_ne_nil w []) (List.forall_mem_singleton.mpr h)
    rwa [String.intercalate_singleton] at hreads
  | path segments =>
    simp only [Token.isWritable, Bool.and_eq_true, decide_eq_true_eq, List.all_eq_true] at h
    match segments, h with
    | w :: w' :: more, h => exact reads_name (by simp) h.2
  | quoted s => exact reads_quoted s
  | endOfScript => cases h
  | _ => exact fun rest _ => ⟨_, rest, rfl, rfl, rfl⟩

theorem piece_space {c : Char} {cs : List Char} (h : Text.isBlank c = false) :
    piece ' ' (c :: cs) = .ok (⟨[' '], none⟩, c :: cs) := by
  have hblank : Text.isBlank ' ' = true := rfl
  change Except.ok (blankPiece (' ' :: c :: cs)) = _
  simp [blankPiece, hblank, h]

def behind : List Token → List Char
  | [] => []
  | tokens => ' ' :: (Token.renderAll tokens).toList

theorem renderAll_cons (t : Token) (tokens : List Token) :
    (Token.renderAll (t :: tokens)).toList = t.render.toList ++ behind tokens := by
  cases tokens with
  | nil => simp [Token.renderAll, behind]
  | cons t' tokens =>
    rw [Token.renderAll, List.map_cons, List.map_cons, String.intercalate_cons_cons]
    simp [Token.renderAll, behind]

theorem follows_behind (tokens : List Token) : Follows [' '] (behind tokens) := by
  cases tokens with
  | nil => exact .nil _
  | cons t tokens => exact .cons List.mem_cons_self _

/-- Written tokens are read back, from any offset on. -/
theorem lexemes_renderAll {tokens : List Token} (h : ∀ t ∈ tokens, t.isWritable = true)
    (offset : Nat) : ∃ ls, lexemes offset (Token.renderAll tokens).toList = .ok ls ∧
      ls.map Lexeme.token = tokens ++ [.endOfScript] := by
  induction tokens generalizing offset with
  | nil =>
    refine ⟨[⟨.endOfScript, offset, offset⟩], ?_, rfl⟩
    simp [Token.renderAll, lexemes]
  | cons t tokens ih =>
    obtain ⟨ht, hmore⟩ := List.forall_mem_cons.mp h
    obtain ⟨c, cs, htext, _, hpiece⟩ := reads_render ht _ (follows_behind tokens)
    have hbehind (offset : Nat) : ∃ ls, lexemes offset (behind tokens) = .ok ls ∧
        ls.map Lexeme.token = tokens ++ [.endOfScript] := by
      cases tokens with
      | nil => exact ⟨[⟨.endOfScript, offset, offset⟩], by rw [behind, lexemes], rfl⟩
      | cons t' tokens =>
        obtain ⟨ls, hls, htokens⟩ := ih hmore (offset + byteLength [' '])
        obtain ⟨c', cs', htext', hblank, _⟩ :=
          reads_render (hmore t' List.mem_cons_self) _ (follows_behind tokens)
        rw [renderAll_cons, htext'] at hls
        refine ⟨ls, ?_, htokens⟩
        rw [behind, renderAll_cons, htext', lexemes_piece (piece_space hblank), hls]
        · rfl
        · simp
    obtain ⟨ls, hls, htokens⟩ := hbehind (offset + byteLength t.render.toList)
    rw [renderAll_cons, htext, lexemes_piece hpiece, hls]
    exact ⟨_, rfl, congrArg (t :: ·) htokens⟩

end Lexer

/-- Lexing undoes writing. Tokens are read back as they were written, with the end of the script
behind them: names of any characters that do not end them, and literals of any text. -/
theorem Script.lex_renderAll (name : String) {tokens : List Token}
    (h : ∀ t ∈ tokens, t.isWritable = true) :
    ∃ ls, (Script.ofText name (Token.renderAll tokens)).lex = .ok ls ∧
      ls.map Lexeme.token = tokens ++ [.endOfScript] := by
  obtain ⟨ls, hls, htokens⟩ := Lexer.lexemes_renderAll h 0
  refine ⟨ls, ?_, htokens⟩
  rw [lex, ofText, hls]

/-- Slashes and stars in names, and quotes, backslashes, line breaks and comments in a literal. -/
theorem Script.lex_renderAll_slashes :
    let tokens : List Token :=
      [.word "/", .path ["a/", "*b", "/"], .quoted "\\n\"' // \n/*", .openBrace, .word "*/",
        .closeBracket]
    (∀ t ∈ tokens, t.isWritable = true) ∧
      Token.renderAll tokens = "/ a/.*b./ \"\\\\n\\\"' // \n/*\" \x7b */ ]" ∧
      ∃ ls, (Script.ofText "slashes" (Token.renderAll tokens)).lex = .ok ls ∧
        ls.map Lexeme.token = tokens ++ [.endOfScript] :=
  ⟨by decide +kernel, by decide +kernel, Script.lex_renderAll "slashes" (by decide +kernel)⟩

end ConceptScript
