import ConceptScript.Proofs.Outcome
import ConceptScript.Token.Lexer

namespace ConceptScript.Lexer

theorem nameToken_ne_endOfScript (words : List String) : nameToken words ≠ .endOfScript := by
  unfold nameToken
  split <;> simp

theorem punctuation_ne_endOfScript (c : Char) : punctuation c ≠ some .endOfScript := by
  unfold punctuation
  split <;> simp

/-- Where a token comes from: a literal, a single character or a name. -/
theorem token_cases {c : Char} {cs rest : List Char} {p : Piece} (h : piece c cs = .ok (p, rest))
    {token : Token} (ht : p.token? = some token) :
    (∃ s, token = .quoted s) ∨ punctuation c = some token ∨
      ∃ words, segments (c :: cs) = .ok (words, rest) ∧ token = nameToken words := by
  unfold piece at h
  split at h
  · obtain ⟨rfl, _⟩ := Prod.mk.inj (Except.ok.inj h)
    cases ht
  · unfold blockComment at h
    split at h
    · obtain ⟨rfl, _⟩ := Prod.mk.inj (Except.ok.inj h)
      cases ht
    · cases h
  · split at h
    · obtain ⟨rfl, _⟩ := Prod.mk.inj (Except.ok.inj h)
      cases ht
    · split at h
      · obtain ⟨⟨body, after⟩, _, hp⟩ := bind_eq_ok.mp h
        obtain ⟨rfl, _⟩ := Prod.mk.inj (pure_eq_ok.mp hp)
        exact .inl ⟨_, (Option.some.inj ht).symm⟩
      · split at h
        · next token' hp =>
          obtain ⟨rfl, _⟩ := Prod.mk.inj (Except.ok.inj h)
          exact .inr (.inl (hp.trans ht))
        · split at h
          · cases h
          · unfold name at h
            split at h
            · next words after hs =>
              obtain ⟨rfl, rfl⟩ := Prod.mk.inj (Except.ok.inj h)
              exact .inr (.inr ⟨words, hs, (Option.some.inj ht).symm⟩)
            · cases h

theorem token_ne_endOfScript {c : Char} {cs rest : List Char} {p : Piece}
    (h : piece c cs = .ok (p, rest)) : p.token? ≠ some .endOfScript := by
  intro htoken
  rcases token_cases h htoken with ⟨s, hs⟩ | hmark | ⟨words, _, hname⟩
  · cases hs
  · exact punctuation_ne_endOfScript c hmark
  · exact nameToken_ne_endOfScript words hname.symm

theorem segments_last {cs word rest : List Char} (h : segment cs = (word, rest))
    (hdot : ∀ more, rest ≠ '.' :: more) : segments cs = .ok ([.ofList word], rest) := by
  rw [segments]
  split
  · next heq => exact absurd ((congrArg Prod.snd h).symm.trans heq) (hdot _)
  · next heq => exact absurd ((congrArg Prod.snd h).symm.trans heq) (hdot _)
  · rw [h]

theorem segments_dot {cs word rest more : List Char} {d : Char} {words : List String}
    (h : segment cs = (word, '.' :: d :: rest)) (hd : isWordCharacter d = true)
    (hmore : segments (d :: rest) = .ok (words, more)) :
    segments cs = .ok (.ofList word :: words, more) := by
  rw [segments]
  split
  · next heq =>
    rw [h] at heq
    obtain ⟨rfl, rfl⟩ := List.cons.inj (List.cons.inj heq).2
    rw [if_pos hd, hmore, h]
  · next heq =>
    rw [h] at heq
    cases heq
  · next hnone _ => exact absurd (congrArg Prod.snd h) (hnone d rest)

/-- What is read of a name is a segment that no dot follows, or a segment, a dot and what is read
right behind the dot. -/
theorem segments_induction {P : List Char → List String → List Char → Prop}
    (last : ∀ {cs}, (∀ more, (segment cs).2 ≠ '.' :: more) →
      P cs [.ofList (segment cs).1] (segment cs).2)
    (dot : ∀ {cs d tail words rest}, (segment cs).2 = '.' :: d :: tail →
      isWordCharacter d = true → segments (d :: tail) = .ok (words, rest) →
      P (d :: tail) words rest → P cs (.ofList (segment cs).1 :: words) rest)
    {cs rest : List Char} {words : List String} (h : segments cs = .ok (words, rest)) :
    P cs words rest := by
  fun_induction segments cs generalizing words rest with
  | case1 =>
    rename_i heq hd _ _ hmore ih
    obtain ⟨rfl, rfl⟩ := Prod.mk.inj (Except.ok.inj h)
    exact dot heq hd hmore (ih hmore)
  | case2 => cases h
  | case3 => cases h
  | case4 => cases h
  | case5 cs =>
    rename_i hdot hend
    obtain ⟨rfl, rfl⟩ := Prod.mk.inj (Except.ok.inj h)
    refine last fun more heq => ?_
    cases more with
    | nil => exact hend heq
    | cons d tail => exact hdot d tail heq

theorem literalBody_cons {quote c : Char} (hc : c ≠ '\\') (cs : List Char) :
    literalBody quote (c :: cs) =
      if c = quote then .ok ([], cs)
      else do
        let (body, rest) ← literalBody quote cs
        return (c :: body, rest) := by
  rw [literalBody.eq_def]
  split <;> simp_all

theorem piece_of_not_comment {c : Char} {cs : List Char} (h : startsComment (c :: cs) = false) :
    piece c cs =
      if Text.isBlank c then .ok (blankPiece (c :: cs))
      else if c = '"' || c = '\'' then literal c cs
      else (punctuation c).elim (if c = '.' then .error .strayDot else name (c :: cs))
        fun token => .ok (⟨[c], some token⟩, cs) := by
  unfold piece
  split
  · cases h
  · cases h
  · cases punctuation c <;> rfl

def Piece.lexeme? (p : Piece) (offset : Nat) : Option Lexeme :=
  p.token?.map fun token => ⟨token, offset, offset + byteLength p.chars⟩

theorem token?_of_mem_lexeme {p : Piece} {offset : Nat} {l : Lexeme}
    (h : l ∈ (p.lexeme? offset).toList) : p.token? = some l.token := by
  obtain ⟨token, htoken, rfl⟩ := Option.map_eq_some_iff.mp (Option.mem_toList.mp h)
  exact htoken

theorem lexemes_piece {c : Char} {cs rest : List Char} {p : Piece} (h : piece c cs = .ok (p, rest))
    (offset : Nat) : lexemes offset (c :: cs) =
      (lexemes (offset + byteLength p.chars) rest).map ((p.lexeme? offset).toList ++ ·) := by
  rw [lexemes]
  split
  · next hp => simp [h] at hp
  · next hp =>
    obtain ⟨rfl, rfl⟩ := Prod.mk.inj (Except.ok.inj (h.symm.trans hp))
    dsimp only
    cases lexemes (offset + byteLength p.chars) rest with
    | error fault => rfl
    | ok more =>
      rw [ok_bind, Piece.lexeme?]
      cases p.token? <;> rfl

theorem lexemes_of_error {c : Char} {cs : List Char} {cause : Cause} (h : piece c cs = .error cause)
    (offset : Nat) : lexemes offset (c :: cs) = .error ⟨cause, cause.span offset (c :: cs)⟩ := by
  rw [lexemes]
  split
  · next hp =>
    obtain rfl := Except.error.inj (h.symm.trans hp)
    rfl
  · next hp => simp [h] at hp

theorem exists_piece {offset : Nat} {c : Char} {cs : List Char} {tokens : List Lexeme}
    (h : lexemes offset (c :: cs) = .ok tokens) :
    ∃ p rest more, piece c cs = .ok (p, rest) ∧
      lexemes (offset + byteLength p.chars) rest = .ok more ∧
      tokens = (p.lexeme? offset).toList ++ more := by
  cases hp : piece c cs with
  | error cause =>
    rw [lexemes_of_error hp] at h
    cases h
  | ok result =>
    obtain ⟨p, rest⟩ := result
    rw [lexemes_piece hp] at h
    cases hmore : lexemes (offset + byteLength p.chars) rest with
    | error fault =>
      rw [hmore] at h
      cases h
    | ok more =>
      rw [hmore] at h
      exact ⟨p, rest, more, rfl, hmore, (Except.ok.inj h).symm⟩

theorem length_lt_of_piece {c : Char} {cs rest : List Char} {p : Piece}
    (h : piece c cs = .ok (p, rest)) : rest.length < (c :: cs).length := by
  have hchars := congrArg List.length (piece_append h)
  have hpos := List.length_pos_iff.mpr (ne_nil_of_piece h)
  rw [List.length_append] at hchars
  omega

/-- The tokens of a text are those of its first piece and those of the rest, and then the end. -/
theorem lexemes_induction {P : Nat → List Char → List Lexeme → Prop}
    (finish : ∀ offset, P offset [] [⟨.endOfScript, offset, offset⟩])
    (step : ∀ {offset c cs p rest more}, piece c cs = .ok (p, rest) →
      P (offset + byteLength p.chars) rest more →
      P offset (c :: cs) ((p.lexeme? offset).toList ++ more))
    {offset : Nat} {cs : List Char} {tokens : List Lexeme} (h : lexemes offset cs = .ok tokens) :
    P offset cs tokens := by
  induction hn : cs.length using Nat.strongRecOn generalizing offset cs tokens with
  | ind n ih =>
    cases cs with
    | nil =>
      rw [lexemes] at h
      obtain rfl := Except.ok.inj h
      exact finish offset
    | cons c cs =>
      obtain ⟨p, rest, more, hp, hmore, rfl⟩ := exists_piece h
      exact step hp (ih rest.length (hn ▸ length_lt_of_piece hp) hmore rfl)

theorem lexemes_end {offset : Nat} {cs : List Char} {tokens : List Lexeme}
    (h : lexemes offset cs = .ok tokens) :
    ∃ ts span, tokens = ts ++ [⟨.endOfScript, span⟩] ∧ ∀ l ∈ ts, l.token ≠ .endOfScript := by
  refine lexemes_induction (P := fun _ _ tokens => ∃ ts span,
    tokens = ts ++ [⟨.endOfScript, span⟩] ∧ ∀ l ∈ ts, l.token ≠ .endOfScript) ?finish ?step h
  case finish => exact fun offset => ⟨[], ⟨offset, offset⟩, rfl, by simp⟩
  case step =>
    rintro offset c cs p rest _ hp ⟨ts, span, rfl, hts⟩
    refine ⟨(p.lexeme? offset).toList ++ ts, span, (List.append_assoc _ _ _).symm, ?_⟩
    intro l hl heq
    rcases List.mem_append.mp hl with hl | hl
    · exact token_ne_endOfScript hp (heq ▸ token?_of_mem_lexeme hl)
    · exact hts l hl heq

end ConceptScript.Lexer

namespace ConceptScript

theorem Script.lex_eq_ok {script : Script} {tokens : List Lexeme} :
    script.lex = .ok tokens ↔ Lexer.lexemes 0 script.chars = .ok tokens := by
  unfold lex
  cases Lexer.lexemes 0 script.chars <;> simp

theorem Script.lex_end {script : Script} {tokens : List Lexeme} (h : script.lex = .ok tokens) :
    ∃ ts span, tokens = ts ++ [⟨.endOfScript, span⟩] ∧ ∀ l ∈ ts, l.token ≠ .endOfScript :=
  Lexer.lexemes_end (lex_eq_ok.mp h)

end ConceptScript
