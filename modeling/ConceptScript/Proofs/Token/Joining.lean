import ConceptScript.Proofs.Text.Occurrence
import ConceptScript.Proofs.Token.Lexemes

namespace ConceptScript

/-- The same stretch further on. -/
def Span.shift (distance : Nat) (span : Span) : Span :=
  ⟨span.start + distance, span.stop + distance⟩

def Lexeme.shift (distance : Nat) (l : Lexeme) : Lexeme := ⟨l.token, l.span.shift distance⟩

namespace Lexer

def Fault.shift (distance : Nat) (fault : Fault) : Fault :=
  ⟨fault.cause, fault.span.shift distance⟩

theorem foldl_utf8Size (n : Nat) (cs : List Char) :
    cs.foldl (fun n c => n + c.utf8Size) n = n + byteLength cs := by
  induction cs generalizing n with
  | nil => rfl
  | cons c cs ih =>
    rw [byteLength, List.foldl_cons, List.foldl_cons, ih, ih (0 + c.utf8Size)]
    omega

@[simp] theorem byteLength_nil : byteLength [] = 0 := rfl

@[simp] theorem byteLength_append (xs ys : List Char) :
    byteLength (xs ++ ys) = byteLength xs + byteLength ys := by
  rw [byteLength, List.foldl_append, foldl_utf8Size]
  rfl

theorem byteLength_cons (c : Char) (cs : List Char) :
    byteLength (c :: cs) = c.utf8Size + byteLength cs := by
  rw [byteLength, List.foldl_cons, foldl_utf8Size, Nat.zero_add]

theorem piece_of_blank {c : Char} (h : Text.isBlank c = true) (cs : List Char) :
    piece c cs = .ok (blankPiece (c :: cs)) := by
  unfold piece
  split
  · cases h
  · cases h
  · rw [if_pos h]

theorem lexemes_dropWhile (offset : Nat) (cs : List Char) :
    lexemes offset cs =
      lexemes (offset + byteLength (cs.takeWhile Text.isBlank)) (cs.dropWhile Text.isBlank) := by
  cases cs with
  | nil => rfl
  | cons c cs =>
    by_cases h : Text.isBlank c = true
    · rw [lexemes_piece (piece_of_blank h cs)]
      exact congrFun Except.map_id _
    · simp [h]

theorem lexemes_blank {c : Char} (h : Text.isBlank c = true) (offset : Nat) (cs : List Char) :
    lexemes offset (c :: cs) = lexemes (offset + c.utf8Size) cs := by
  rw [lexemes_dropWhile, lexemes_dropWhile (offset + c.utf8Size), List.takeWhile_cons_of_pos h,
    List.dropWhile_cons_of_pos h, byteLength_cons, Nat.add_assoc]

-- No other piece sees what is behind a line break.

theorem lineComment_break (cs more : List Char) :
    lineComment (cs ++ '\n' :: more) =
      ((lineComment cs).1, (lineComment cs).2 ++ '\n' :: more) := by
  unfold lineComment
  induction cs with
  | nil => rfl
  | cons c cs ih =>
    by_cases hc : c = '\n'
    · simp [hc]
    · simp_all

theorem blockComment_append_right {cs rest : List Char} {p : Piece}
    (h : blockComment cs = .ok (p, rest)) (more : List Char) :
    blockComment (cs ++ more) = .ok (p, rest ++ more) := by
  unfold blockComment at h ⊢
  split at h
  · next hcut =>
    obtain ⟨rfl, rfl⟩ := Prod.mk.inj (Except.ok.inj h)
    rw [Text.cutAt?_append hcut]
  · cases h

/-- A backslash is the first of two characters, or the last of all. -/
theorem ne_backslash {c : Char} {cs : List Char} (hend : c = '\\' → cs = [] → False)
    (hescape : ∀ e rest, c = '\\' → cs = e :: rest → False) : c ≠ '\\' := by
  intro hc
  cases cs with
  | nil => exact hend hc rfl
  | cons e rest => exact hescape e rest hc rfl

/-- What is read of a literal ends with the quote, or goes on behind an escape or behind another
character. -/
theorem literalBody_induction {quote : Char} {P : List Char → List Char → List Char → Prop}
    (close : ∀ cs, quote ≠ '\\' → P (quote :: cs) [] cs)
    (escape : ∀ e {cs body rest}, P cs body rest → P ('\\' :: e :: cs) ('\\' :: e :: body) rest)
    (plain : ∀ {c cs body rest}, c ≠ quote → c ≠ '\\' → P cs body rest →
      P (c :: cs) (c :: body) rest)
    {cs body rest : List Char} (h : literalBody quote cs = .ok (body, rest)) : P cs body rest := by
  induction cs using literalBody.induct quote generalizing body with
  | case1 => cases h
  | case2 => cases h
  | case3 e cs ih =>
    obtain ⟨⟨inner, _⟩, hinner, h⟩ := bind_eq_ok.mp h
    obtain ⟨rfl, rfl⟩ := Prod.mk.inj (pure_eq_ok.mp h)
    exact escape e (ih hinner)
  | case4 cs hend hescape =>
    have hc := ne_backslash hend hescape
    rw [literalBody_cons hc, if_pos rfl] at h
    obtain ⟨rfl, rfl⟩ := Prod.mk.inj (Except.ok.inj h)
    exact close cs hc
  | case5 c cs hend hescape hquote ih =>
    have hc := ne_backslash hend hescape
    rw [literalBody_cons hc, if_neg hquote] at h
    obtain ⟨⟨inner, _⟩, hinner, h⟩ := bind_eq_ok.mp h
    obtain ⟨rfl, rfl⟩ := Prod.mk.inj (pure_eq_ok.mp h)
    exact plain hquote hc (ih hinner)

theorem literalBody_append_right {quote : Char} {cs body rest : List Char}
    (h : literalBody quote cs = .ok (body, rest)) (more : List Char) :
    literalBody quote (cs ++ more) = .ok (body, rest ++ more) := by
  refine literalBody_induction
    (P := fun cs body rest => literalBody quote (cs ++ more) = .ok (body, rest ++ more))
    ?close ?escape ?plain h
  case close =>
    intro cs hc
    rw [List.cons_append, literalBody_cons hc, if_pos rfl]
  case escape =>
    intro e cs body rest ih
    rw [List.cons_append, List.cons_append, literalBody, ih]
    rfl
  case plain =>
    intro c cs body rest hquote hc ih
    rw [List.cons_append, literalBody_cons hc, if_neg hquote, ih]
    rfl

theorem literal_append_right {quote : Char} {cs rest : List Char} {p : Piece}
    (h : literal quote cs = .ok (p, rest)) (more : List Char) :
    literal quote (cs ++ more) = .ok (p, rest ++ more) := by
  obtain ⟨⟨body, after⟩, hbody, h⟩ := bind_eq_ok.mp h
  obtain ⟨rfl, rfl⟩ := Prod.mk.inj (pure_eq_ok.mp h)
  rw [literal, literalBody_append_right hbody]
  rfl

theorem startsComment_break (c : Char) (cs more : List Char) :
    startsComment (c :: (cs ++ '\n' :: more)) = startsComment (c :: cs) := by
  cases cs with
  | nil =>
    unfold startsComment
    split <;> simp_all
  | cons d cs =>
    rw [List.cons_append, startsComment.eq_def, startsComment.eq_def (c :: d :: cs)]
    split <;> simp_all

theorem segment_break (cs more : List Char) :
    segment (cs ++ '\n' :: more) = ((segment cs).1, (segment cs).2 ++ '\n' :: more) := by
  induction cs with
  | nil => rfl
  | cons c cs ih =>
    rw [List.cons_append, segment, segment, startsComment_break, ih]
    split <;> rfl

theorem segments_break {cs rest : List Char} {words : List String}
    (h : segments cs = .ok (words, rest)) (more : List Char) :
    segments (cs ++ '\n' :: more) = .ok (words, rest ++ '\n' :: more) := by
  refine segments_induction (P := fun cs words rest =>
    segments (cs ++ '\n' :: more) = .ok (words, rest ++ '\n' :: more)) ?last ?dot h
  case last =>
    intro cs hdot
    refine segments_last (segment_break cs more) fun after heq => ?_
    cases hrest : (segment cs).2 with
    | nil =>
      rw [hrest] at heq
      cases heq
    | cons d tail =>
      rw [hrest] at heq
      obtain ⟨rfl, _⟩ := List.cons.inj heq
      exact hdot tail hrest
  case dot =>
    intro cs d tail words rest heq hd _ ih
    have hbreak := segment_break cs more
    rw [heq] at hbreak
    exact segments_dot hbreak hd ih

theorem name_break {cs rest : List Char} {p : Piece} (h : name cs = .ok (p, rest))
    (more : List Char) : name (cs ++ '\n' :: more) = .ok (p, rest ++ '\n' :: more) := by
  unfold name at h ⊢
  split at h
  · next hwords =>
    obtain ⟨rfl, rfl⟩ := Prod.mk.inj (Except.ok.inj h)
    rw [segments_break hwords]
  · cases h

theorem piece_break {c : Char} {cs rest : List Char} {p : Piece} (hc : Text.isBlank c = false)
    (h : piece c cs = .ok (p, rest)) (more : List Char) :
    piece c (cs ++ '\n' :: more) = .ok (p, rest ++ '\n' :: more) := by
  cases hcomment : startsComment (c :: cs) with
  | true =>
    unfold startsComment at hcomment
    split at hcomment
    · next tail heq =>
      obtain ⟨rfl, rfl⟩ := List.cons.inj heq
      obtain ⟨rfl, rfl⟩ := Prod.mk.inj (Except.ok.inj h)
      exact congrArg Except.ok (lineComment_break ('/' :: '/' :: tail) more)
    · next tail heq =>
      obtain ⟨rfl, rfl⟩ := List.cons.inj heq
      exact blockComment_append_right h _
    · cases hcomment
  | false =>
    rw [piece_of_not_comment ((startsComment_break c cs more).trans hcomment)]
    rw [piece_of_not_comment hcomment] at h
    simp only [hc, Bool.false_eq_true, if_false] at h ⊢
    by_cases hquote : (c = '"' || c = '\'') = true
    · rw [if_pos hquote] at h ⊢
      exact literal_append_right h _
    · rw [if_neg hquote] at h ⊢
      cases htoken : punctuation c with
      | some token =>
        rw [htoken, Option.elim_some] at h
        obtain ⟨rfl, rfl⟩ := Prod.mk.inj (Except.ok.inj h)
        rfl
      | none =>
        rw [htoken, Option.elim_none] at h
        by_cases hdot : c = '.'
        · rw [if_pos hdot] at h
          cases h
        · rw [if_neg hdot] at h
          rw [Option.elim_none, if_neg hdot]
          exact name_break h more

/-- A text that is read to its end is read up to a line break behind it. -/
theorem lexemes_break {offset : Nat} {cs : List Char} {ts : List Lexeme} {span : Span}
    (h : lexemes offset cs = .ok (ts ++ [⟨.endOfScript, span⟩])) (more : List Char) :
    lexemes offset (cs ++ '\n' :: more) =
      (lexemes (offset + byteLength cs + 1) more).map (ts ++ ·) := by
  induction hn : cs.length using Nat.strongRecOn generalizing offset cs ts span with
  | ind n ih =>
    cases cs with
    | nil =>
      rw [lexemes] at h
      obtain ⟨rfl, _⟩ := List.append_inj' (Except.ok.inj h : [] ++ [_] = _) rfl
      rw [List.nil_append, lexemes_blank rfl]
      exact (congrFun Except.map_id _).symm
    | cons c cs =>
      by_cases hc : Text.isBlank c = true
      · rw [lexemes_blank hc] at h
        rw [List.cons_append, lexemes_blank hc, ih cs.length (by simp [← hn]) h rfl,
          byteLength_cons, Nat.add_assoc offset]
      · obtain ⟨p, rest, tokens, hp, htokens, heq⟩ := exists_piece h
        obtain ⟨us, span', rfl, _⟩ := lexemes_end htokens
        obtain ⟨rfl, _⟩ := List.append_inj' (heq.trans (List.append_assoc _ _ _).symm) rfl
        have hmore := ih rest.length (hn ▸ length_lt_of_piece hp) htokens rfl
        rw [List.cons_append, lexemes_piece (piece_break (by simpa using hc) hp more), hmore,
          ← piece_append hp, byteLength_append, Nat.add_assoc offset]
        cases lexemes (offset + (byteLength p.chars + byteLength rest) + 1) more with
        | error fault => rfl
        | ok later => exact congrArg Except.ok (List.append_assoc _ _ _).symm

theorem span_shift (cause : Cause) (distance offset : Nat) (text : List Char) :
    cause.span (offset + distance) text = (cause.span offset text).shift distance := by
  cases cause <;> simp only [Cause.span, Span.shift, Nat.add_right_comm]

theorem lexeme?_shift (p : Piece) (distance offset : Nat) :
    p.lexeme? (offset + distance) = (p.lexeme? offset).map (Lexeme.shift distance) := by
  simp only [Piece.lexeme?, Option.map_map, Function.comp_def, Lexeme.shift, Span.shift,
    Nat.add_right_comm]

theorem lexemes_shift (distance offset : Nat) (cs : List Char) :
    lexemes (offset + distance) cs =
      ((lexemes offset cs).map (List.map (Lexeme.shift distance))).mapError
        (Fault.shift distance) := by
  induction hn : cs.length using Nat.strongRecOn generalizing offset cs with
  | ind n ih =>
    cases cs with
    | nil =>
      rw [lexemes, lexemes]
      rfl
    | cons c cs =>
      cases hp : piece c cs with
      | error cause =>
        rw [lexemes_of_error hp, lexemes_of_error hp, span_shift]
        rfl
      | ok result =>
        obtain ⟨p, rest⟩ := result
        rw [lexemes_piece hp, lexemes_piece hp, Nat.add_right_comm,
          ih rest.length (hn ▸ length_lt_of_piece hp) _ rest rfl, lexeme?_shift]
        cases lexemes (offset + byteLength p.chars) rest with
        | error fault => rfl
        | ok more => cases p.lexeme? offset <;> rfl

end Lexer

theorem Script.lex_join (name : String) {a b : Script} {ts us : List Lexeme} {span : Span}
    (ha : a.lex = .ok (ts ++ [⟨.endOfScript, span⟩])) (hb : b.lex = .ok us) :
    (Script.mk name (a.chars ++ '\n' :: b.chars)).lex =
      .ok (ts ++ us.map (.shift (Lexer.byteLength a.chars + 1))) := by
  rw [lex_eq_ok] at ha hb ⊢
  rw [Lexer.lexemes_break ha, Nat.add_assoc, Lexer.lexemes_shift, hb]
  rfl

theorem Lexer.byteLength_eq_size (cs : List Char) : byteLength cs = cs.utf8Encode.size := by
  induction cs with
  | nil => rfl
  | cons c cs ih =>
    rw [byteLength_cons, List.utf8Encode_cons, List.utf8Encode_singleton, ByteArray.size_append,
      List.size_toByteArray, String.length_utf8EncodeChar, ih]

/-- Two scripts as one, with a line break between them. -/
def Script.join (name : String) (a b : Script) : Script := .ofText name (a.text ++ "\n" ++ b.text)

namespace Script

theorem join_eq (name : String) (a b : Script) :
    a.join name b = ⟨name, a.chars ++ '\n' :: b.chars⟩ := by
  simp [join, ofText, text]

theorem byteLength_chars (script : Script) :
    Lexer.byteLength script.chars = script.text.utf8ByteSize := by
  rw [Lexer.byteLength_eq_size, text, ← String.size_toByteArray, String.toByteArray_ofList]

theorem lex_eq_error {script : Script} {d : Diagnostic} :
    script.lex = .error d ↔ ∃ fault, Lexer.lexemes 0 script.chars = .error fault ∧
      d = { code := .lexical, message := fault.cause.message,
            location := script.locate fault.span } := by
  unfold lex
  cases Lexer.lexemes 0 script.chars <;> simp [eq_comm]

/-- How a script is read behind the tokens of another one and a line break. -/
structure ReadBehind (name : String) (a b : Script) (ts : List Lexeme) : Prop where
  succeeds : (∃ us, (a.join name b).lex = .ok us) ↔ ∃ us, b.lex = .ok us
  tokens : ∀ us, b.lex = .ok us →
    (a.join name b).lex = .ok (ts ++ us.map (.shift (a.text.utf8ByteSize + 1)))
  /-- The fault is the same, with the same message, and is as far behind. -/
  fault : ∀ d, b.lex = .error d → ∃ span, d.location = b.locate span ∧
    (a.join name b).lex = .error { d with
      location := (a.join name b).locate (span.shift (a.text.utf8ByteSize + 1)) }

/-- Lexing goes on behind a line break as if nothing had been before, and all places are as far
behind as the first script and the line break are long. -/
theorem lex_lines (name : String) (a b : Script) {tokens : List Lexeme} (h : a.lex = .ok tokens) :
    ∃ ts span, tokens = ts ++ [⟨.endOfScript, span⟩] ∧ (∀ l ∈ ts, l.token ≠ .endOfScript) ∧
      ReadBehind name a b ts := by
  obtain ⟨ts, span, rfl, hts⟩ := lex_end h
  have hok (us : List Lexeme) (hus : b.lex = .ok us) :
      (a.join name b).lex = .ok (ts ++ us.map (.shift (a.text.utf8ByteSize + 1))) := by
    rw [join_eq, lex_join name h hus, byteLength_chars]
  have hfault (d : Diagnostic) (hd : b.lex = .error d) : ∃ span, d.location = b.locate span ∧
      (a.join name b).lex = .error { d with
        location := (a.join name b).locate (span.shift (a.text.utf8ByteSize + 1)) } := by
    obtain ⟨fault, hlexemes, rfl⟩ := lex_eq_error.mp hd
    refine ⟨fault.span, rfl, lex_eq_error.mpr ⟨fault.shift (a.text.utf8ByteSize + 1), ?_, rfl⟩⟩
    rw [join_eq, Lexer.lexemes_break (lex_eq_ok.mp h), Nat.add_assoc, Lexer.lexemes_shift,
      hlexemes, byteLength_chars]
    rfl
  refine ⟨ts, span, rfl, hts, ⟨?_, ?_⟩, hok, hfault⟩
  · rintro ⟨us, hus⟩
    cases hb : b.lex with
    | ok more => exact ⟨more, rfl⟩
    | error d =>
      obtain ⟨_, _, herror⟩ := hfault d hb
      cases hus.symm.trans herror
  · rintro ⟨us, hus⟩
    exact ⟨_, hok us hus⟩

/-- A script that ends in a comment, with a literal behind it that does not end. -/
theorem lex_lines_remark :
    let a := Script.ofText "a" "é.b c // '"
    let b := Script.ofText "b" "/\n'd"
    let tokens : List Lexeme := [⟨.path ["é", "b"], 0, 4⟩, ⟨.word "c", 5, 6⟩]
    a.lex = .ok (tokens ++ [⟨.endOfScript, 11, 11⟩]) ∧ ReadBehind "c" a b tokens ∧
      b.lex = .error { code := .lexical, message := "unterminated string literal",
                       location := some ⟨"b", ⟨2, 1⟩, ⟨2, 3⟩⟩ } ∧
      (a.join "c" b).lex = .error { code := .lexical, message := "unterminated string literal",
                                    location := some ⟨"c", ⟨3, 1⟩, ⟨3, 3⟩⟩ } := by
  intro a b tokens
  have ha : a.lex = .ok (tokens ++ [⟨.endOfScript, 11, 11⟩]) := by decide +kernel
  obtain ⟨ts, span, heq, _, hbehind⟩ := lex_lines "c" a b ha
  obtain ⟨rfl, _⟩ := List.append_inj' heq rfl
  exact ⟨ha, hbehind, by decide +kernel, by decide +kernel⟩

end Script

end ConceptScript
