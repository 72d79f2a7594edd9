import Mathlib.Data.List.TakeWhile
import ConceptScript.Proofs.Token.Joining
import ConceptScript.Proofs.Token.Rendering

namespace ConceptScript

namespace Lexer

/-- What a backslash and the character after it stand for. -/
def escaped (e : Char) : List Char :=
  if e = 'n' then ['\n']
  else if e = 't' then ['\t']
  else if e = '"' ∨ e = '\'' ∨ e = '\\' then [e]
  else ['\\', e]

/-- What stands between two quotes, and the text it means. -/
inductive Resolves (quote : Char) : List Char → List Char → Prop
  | nil : Resolves quote [] []
  | plain {c : Char} {body value : List Char} : c ≠ quote → c ≠ '\\' →
      Resolves quote body value → Resolves quote (c :: body) (c :: value)
  | escape (e : Char) {body value : List Char} : Resolves quote body value →
      Resolves quote ('\\' :: e :: body) (escaped e ++ value)

/-- A text of blanks and whole comments, and the text behind it. A line comment goes up to the line
break, and a block comment up to the first mark that closes it. -/
inductive Skipped : List Char → List Char → Prop
  | nil {after : List Char} : Skipped [] after
  | blank {c : Char} {gap after : List Char} : Text.isBlank c = true → Skipped gap after →
      Skipped (c :: gap) after
  | line {body gap after : List Char} : '\n' ∉ body → Text.Follows ['\n'] (gap ++ after) →
      Skipped gap after → Skipped ('/' :: '/' :: (body ++ gap)) after
  | block {body gap after : List Char} : ¬['*', '/'] <:+: body ++ ['*'] → Skipped gap after →
      Skipped ('/' :: '*' :: (body ++ '*' :: '/' :: gap)) after

end Lexer

namespace Token

def IsName (t : Token) : Prop := (∃ w, t = .word w) ∨ ∃ segments, t = .path segments

/-- The ways to write a token. -/
inductive Spelled : Token → List Char → Prop
  | word (w : String) : Spelled (.word w) w.toList
  | path (segments : List String) : Spelled (.path segments) (".".intercalate segments).toList
  | quoted {quote : Char} {body value : List Char} : quote = '"' ∨ quote = '\'' →
      Lexer.Resolves quote body value →
      Spelled (.quoted (.ofList value)) (quote :: (body ++ [quote]))
  | openBrace : Spelled .openBrace ['\x7b']
  | closeBrace : Spelled .closeBrace ['\x7d']
  | openBracket : Spelled .openBracket ['[']
  | closeBracket : Spelled .closeBracket [']']
  | semicolon : Spelled .semicolon [';']

end Token

namespace Lexer

theorem unescape_backslash (e : Char) (cs : List Char) :
    unescape ('\\' :: e :: cs) = escaped e ++ unescape cs := by
  unfold escaped
  split
  · next h =>
    subst h
    rfl
  · split
    · next h =>
      subst h
      rfl
    · split
      · next h => rcases h with rfl | rfl | rfl <;> rfl
      · rw [unescape] <;> simp_all

theorem resolves_of_literalBody {quote : Char} {cs body rest : List Char}
    (h : literalBody quote cs = .ok (body, rest)) : Resolves quote body (unescape body) := by
  refine literalBody_induction (P := fun _ body _ => Resolves quote body (unescape body))
    ?close ?escape ?plain h
  case close => exact fun _ _ => .nil
  case escape =>
    intro e cs body rest ih
    rw [unescape_backslash]
    exact .escape e ih
  case plain =>
    intro c cs body rest hquote hc ih
    rw [unescape_cons hc]
    exact .plain hquote hc ih

/-- No name goes on with the text. -/
def EndsName (text : List Char) : Prop :=
  ∀ c cs, text = c :: cs → isWordCharacter c = true → startsComment (c :: cs) = true

theorem endsName_segment (cs : List Char) : EndsName (segment cs).2 := by
  fun_induction segment cs with
  | case1 => simp [EndsName]
  | case2 c cs h word rest heq ih => rwa [heq] at ih
  | case3 c cs h =>
    rintro _ _ ⟨⟩ hc
    simpa [hc] using h

theorem endsName_of_segments {cs rest : List Char} {words : List String}
    (h : segments cs = .ok (words, rest)) : EndsName rest :=
  segments_induction (P := fun _ _ rest => EndsName rest) (fun {cs} _ => endsName_segment cs)
    (fun _ _ _ ih => ih) h

theorem not_endsName {c : Char} {cs : List Char} (hword : isWordCharacter c = true)
    (hcomment : startsComment (c :: cs) = false) : ¬EndsName (c :: cs) := by
  intro hends
  rw [hends c cs rfl hword] at hcomment
  cases hcomment

/-- What a piece can be, and what comes behind it. -/
inductive Piece.Written : Piece → List Char → Prop
  | blanks {chars rest : List Char} : (∀ c ∈ chars, Text.isBlank c = true) →
      Written ⟨chars, none⟩ rest
  | line {body rest : List Char} : '\n' ∉ body → Text.Follows ['\n'] rest →
      Written ⟨'/' :: '/' :: body, none⟩ rest
  | block {body rest : List Char} : ¬['*', '/'] <:+: body ++ ['*'] →
      Written ⟨'/' :: '*' :: (body ++ ['*', '/']), none⟩ rest
  | token {token : Token} {chars rest : List Char} : token.Spelled chars →
      (token.IsName → EndsName rest ∧ ¬EndsName (chars ++ rest)) →
      Written ⟨chars, some token⟩ rest

theorem written_blankPiece (cs : List Char) :
    (blankPiece cs).1.Written (blankPiece cs).2 :=
  .blanks fun _ hc => List.mem_takeWhile_imp hc

theorem written_lineComment (cs : List Char) :
    (lineComment ('/' :: '/' :: cs)).1.Written (lineComment ('/' :: '/' :: cs)).2 := by
  have hline : lineComment ('/' :: '/' :: cs) =
      (⟨'/' :: '/' :: cs.takeWhile (· != '\n'), none⟩, cs.dropWhile (· != '\n')) := rfl
  rw [hline]
  refine .line (fun hmem => ?_) fun c hc => ?_
  · cases List.mem_takeWhile_imp hmem
  · have hbreak := List.head?_dropWhile_not (· != '\n') cs
    rw [Option.mem_def.mp hc] at hbreak
    simpa using hbreak

theorem written_blockComment {cs rest : List Char} {p : Piece}
    (h : blockComment cs = .ok (p, rest)) : p.Written rest := by
  unfold blockComment at h
  split at h
  · next body after hcut =>
    obtain ⟨rfl, rfl⟩ := Prod.mk.inj (Except.ok.inj h)
    exact .block (Text.not_infix_of_cutAt? (by simp) hcut)
  · cases h

theorem written_literal {quote : Char} {cs rest : List Char} {p : Piece}
    (hquote : quote = '"' ∨ quote = '\'') (h : literal quote cs = .ok (p, rest)) :
    p.Written rest := by
  obtain ⟨⟨body, after⟩, hbody, h⟩ := bind_eq_ok.mp h
  obtain ⟨rfl, rfl⟩ := Prod.mk.inj (pure_eq_ok.mp h)
  refine .token (.quoted hquote (resolves_of_literalBody hbody)) ?_
  rintro (⟨w, hw⟩ | ⟨segments, hsegments⟩)
  · cases hw
  · cases hsegments

theorem written_punctuation {c : Char} {token : Token} (h : punctuation c = some token)
    (rest : List Char) : Piece.Written ⟨[c], some token⟩ rest := by
  have hspelled : token.Spelled [c] ∧ ¬token.IsName := by
    unfold punctuation at h
    split at h <;> cases h <;> exact ⟨by constructor, by simp [Token.IsName]⟩
  exact .token hspelled.1 fun hname => absurd hname hspelled.2

theorem written_name {c : Char} {cs rest : List Char} {p : Piece}
    (hword : isWordCharacter c = true) (hcomment : startsComment (c :: cs) = false)
    (h : name (c :: cs) = .ok (p, rest)) : p.Written rest := by
  have hchars := name_append h
  unfold name at h
  split at h
  · next words after hwords =>
    obtain ⟨rfl, rfl⟩ := Prod.mk.inj (Except.ok.inj h)
    refine .token ?_ fun _ => ⟨endsName_of_segments hwords, ?_⟩
    · unfold nameToken
      split
      · simpa using Token.Spelled.word _
      · exact .path _
    · rw [hchars]
      exact not_endsName hword hcomment
  · cases h

theorem written_of_piece {c : Char} {cs rest : List Char} {p : Piece}
    (h : piece c cs = .ok (p, rest)) : p.Written rest := by
  unfold piece at h
  split at h
  · obtain ⟨rfl, rfl⟩ := Prod.mk.inj (Except.ok.inj h)
    exact written_lineComment _
  · exact written_blockComment h
  · next hline hblock =>
    split at h
    · obtain ⟨rfl, rfl⟩ := Prod.mk.inj (Except.ok.inj h)
      exact written_blankPiece _
    · next hblank =>
      split at h
      · next hquote => exact written_literal (by simpa using hquote) h
      · next hquote =>
        split at h
        · next token hmark =>
          obtain ⟨rfl, rfl⟩ := Prod.mk.inj (Except.ok.inj h)
          exact written_punctuation hmark cs
        · next hmark =>
          split at h
          · cases h
          · next hdot =>
            refine written_name ?_ ?_ h
            · unfold punctuation at hmark
              split at hmark <;> simp_all [isWordCharacter, isSpecial]
            · unfold startsComment
              split <;> simp_all

theorem Skipped.blanks {chars gap after : List Char} (h : ∀ c ∈ chars, Text.isBlank c = true)
    (hgap : Skipped gap after) : Skipped (chars ++ gap) after := by
  induction chars with
  | nil => exact hgap
  | cons c chars ih =>
    obtain ⟨hc, hchars⟩ := List.forall_mem_cons.mp h
    exact .blank hc (ih hchars)

theorem Piece.Written.skipped {chars gap after : List Char}
    (h : Piece.Written ⟨chars, none⟩ (gap ++ after)) (hgap : Skipped gap after) :
    Skipped (chars ++ gap) after := by
  cases h with
  | blanks hblank => exact .blanks hblank hgap
  | line hbody hbreak => exact .line hbody hbreak hgap
  | block hbody => simpa using Skipped.block hbody hgap

end Lexer

end ConceptScript
