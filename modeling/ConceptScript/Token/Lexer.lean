import ConceptScript.Diagnostic
import ConceptScript.Text.Blank
import ConceptScript.Text.Search
import ConceptScript.Token

namespace ConceptScript.Lexer

/-- Characters that end a word wherever they stand. -/
def isSpecial (c : Char) : Bool :=
  c == '\x7b' || c == '\x7d' || c == '[' || c == ']' || c == ';' || c == '"' || c == '\'' || c == '.'

def isWordCharacter (c : Char) : Bool := !Text.isBlank c && !isSpecial c

def startsComment : List Char → Bool
  | '/' :: '/' :: _ => true
  | '/' :: '*' :: _ => true
  | _ => false

def byteLength (cs : List Char) : Nat := cs.foldl (fun n c => n + c.utf8Size) 0

inductive Cause where
  | unterminatedComment
  | unterminatedLiteral
  | unterminatedEscape
  | strayDot
  /-- A dot after these segments that no word follows. -/
  | danglingDot (segments : List String)
  deriving Repr, DecidableEq

namespace Cause

def message : Cause → String
  | unterminatedComment => "unterminated block comment"
  | unterminatedLiteral => "unterminated string literal"
  | unterminatedEscape => "unterminated escape in string"
  | strayDot =>
    "unexpected '.': a dot may only join two adjacent words, as in 'Module.Entity'"
  | danglingDot segments =>
    "unexpected '.' after '" ++ ".".intercalate segments ++
      "': a dot must be followed directly by a word"

/-- Where the fault is, for a piece that starts at an offset: an unterminated piece reaches to
the end of the text, and a dot is one byte. -/
def span (offset : Nat) (text : List Char) : Cause → Span
  | unterminatedComment => ⟨offset, offset + byteLength text⟩
  | unterminatedLiteral => ⟨offset, offset + byteLength text⟩
  | unterminatedEscape => ⟨offset, offset + byteLength text⟩
  | strayDot => ⟨offset, offset + 1⟩
  | danglingDot segments =>
    let dot := offset + (".".intercalate segments).utf8ByteSize
    ⟨dot, dot + 1⟩

end Cause

/-- The characters of a word, up to a special character, a blank or a comment. -/
def segment : List Char → List Char × List Char
  | [] => ([], [])
  | c :: cs =>
    if isWordCharacter c && !startsComment (c :: cs) then
      let (word, rest) := segment cs
      (c :: word, rest)
    else ([], c :: cs)

theorem segment_append (cs : List Char) : (segment cs).1 ++ (segment cs).2 = cs := by
  fun_induction segment cs <;> simp_all

theorem segment_ne_nil {c : Char} {cs : List Char} (hw : isWordCharacter c = true)
    (hc : startsComment (c :: cs) = false) : (segment (c :: cs)).1 ≠ [] := by
  simp [segment, hw, hc]

/-- Segments joined by dots and the text after them, or the segments before a dangling dot. -/
def segments (cs : List Char) : Except (List String) (List String × List Char) :=
  let word := String.ofList (segment cs).1
  match _h : (segment cs).2 with
  | '.' :: d :: rest =>
    if isWordCharacter d then
      match segments (d :: rest) with
      | .ok (words, rest) => .ok (word :: words, rest)
      | .error words => .error (word :: words)
    else .error [word]
  | '.' :: [] => .error [word]
  | rest => .ok ([word], rest)
termination_by cs.length
decreasing_by
  have := congrArg List.length (segment_append cs)
  simp_all
  omega

theorem eq_cons_of_segments {cs : List Char} {words : List String} {rest : List Char}
    (h : segments cs = .ok (words, rest)) :
    ∃ more, words = String.ofList (segment cs).1 :: more := by
  rw [segments] at h
  split at h
  · split at h
    · split at h <;> simp at h
      exact ⟨_, h.1.symm⟩
    · simp at h
  · simp at h
  · simp at h
    exact ⟨_, h.1.symm⟩

theorem segments_append {cs : List Char} {words : List String} {rest : List Char}
    (h : segments cs = .ok (words, rest)) : (".".intercalate words).toList ++ rest = cs := by
  induction hn : cs.length using Nat.strongRecOn generalizing cs words with
  | ind n ih =>
    have hc := segment_append cs
    rw [segments] at h
    split at h
    · next d tail heq =>
      split at h
      · split at h
        · next ws r hr =>
          obtain ⟨rfl, rfl⟩ : _ ∧ r = rest := by simpa using h
          obtain ⟨ws, rfl⟩ := eq_cons_of_segments hr
          generalize String.ofList (segment (d :: tail)).1 = w at *
          rw [heq] at hc
          have hlen : (d :: tail).length < n := by
            have := congrArg List.length hc
            simp only [List.length_append, List.length_cons] at this ⊢
            omega
          have hd := ih _ hlen hr rfl
          calc _ = (segment cs).1 ++ '.' :: ((".".intercalate (w :: ws)).toList ++ r) := by
                rw [String.intercalate_cons_cons]; simp
            _ = cs := by rw [hd, hc]
        · simp at h
      · simp at h
    · simp at h
    · obtain ⟨rfl, rfl⟩ : _ ∧ _ = rest := by simpa using h
      simpa using hc

/-- The body of a literal up to its closing quote, and the text after the quote. -/
def literalBody (quote : Char) : List Char → Except Cause (List Char × List Char)
  | [] => .error .unterminatedLiteral
  | '\\' :: [] => .error .unterminatedEscape
  | '\\' :: e :: cs => do
    let (body, rest) ← literalBody quote cs
    return ('\\' :: e :: body, rest)
  | c :: cs =>
    if c = quote then .ok ([], cs)
    else do
      let (body, rest) ← literalBody quote cs
      return (c :: body, rest)

theorem literalBody_append {quote : Char} {cs body rest : List Char}
    (h : literalBody quote cs = .ok (body, rest)) : body ++ quote :: rest = cs := by
  induction cs using literalBody.induct quote generalizing body with
  | case1 => simp [literalBody] at h
  | case2 => simp [literalBody] at h
  | case3 e cs ih =>
    simp only [literalBody] at h
    cases hb : literalBody quote cs with
    | error => simp [hb, bind, Except.bind] at h
    | ok p =>
      obtain ⟨b, r⟩ := p
      simp [hb, bind, Except.bind, pure, Except.pure] at h
      obtain ⟨rfl, rfl⟩ := h
      simp [ih hb]
  | case4 cs => simp_all [literalBody]
  | case5 c cs hc _ hq ih =>
    simp only [literalBody, hq, if_false] at h
    cases hb : literalBody quote cs with
    | error => simp [hb, bind, Except.bind] at h
    | ok p =>
      obtain ⟨b, r⟩ := p
      simp [hb, bind, Except.bind, pure, Except.pure] at h
      obtain ⟨rfl, rfl⟩ := h
      simp [ih hb]

/-- An escape of another character stands for itself, backslash included. -/
def unescape : List Char → List Char
  | '\\' :: '"' :: cs => '"' :: unescape cs
  | '\\' :: '\'' :: cs => '\'' :: unescape cs
  | '\\' :: '\\' :: cs => '\\' :: unescape cs
  | '\\' :: 'n' :: cs => '\n' :: unescape cs
  | '\\' :: 't' :: cs => '\t' :: unescape cs
  | '\\' :: c :: cs => '\\' :: c :: unescape cs
  | c :: cs => c :: unescape cs
  | [] => []

/-- A stretch of text that is one token, or a run of blanks or a comment. -/
structure Piece where
  chars : List Char
  token? : Option Token
  deriving Repr, DecidableEq

def blankPiece (cs : List Char) : Piece × List Char :=
  (⟨cs.takeWhile Text.isBlank, none⟩, cs.dropWhile Text.isBlank)

def lineComment (cs : List Char) : Piece × List Char :=
  (⟨cs.takeWhile (· != '\n'), none⟩, cs.dropWhile (· != '\n'))

/-- A block comment, from the text after its opening mark. -/
def blockComment (cs : List Char) : Except Cause (Piece × List Char) :=
  match Text.cutAt? ['*', '/'] cs with
  | some (body, rest) => .ok (⟨'/' :: '*' :: body ++ ['*', '/'], none⟩, rest)
  | none => .error .unterminatedComment

def literal (quote : Char) (cs : List Char) : Except Cause (Piece × List Char) := do
  let (body, rest) ← literalBody quote cs
  return (⟨quote :: body ++ [quote], some (.quoted (.ofList (unescape body)))⟩, rest)

def nameToken : List String → Token
  | [word] => .word word
  | words => .path words

def name (cs : List Char) : Except Cause (Piece × List Char) :=
  match segments cs with
  | .ok (words, rest) => .ok (⟨(".".intercalate words).toList, some (nameToken words)⟩, rest)
  | .error words => .error (.danglingDot words)

theorem blockComment_append {cs rest : List Char} {p : Piece}
    (h : blockComment cs = .ok (p, rest)) : p.chars ++ rest = '/' :: '*' :: cs := by
  unfold blockComment at h
  split at h
  · next hc =>
    obtain ⟨rfl, rfl⟩ := Prod.mk.inj (Except.ok.inj h)
    simp [Text.eq_of_cutAt? hc]
  · simp at h

theorem literal_append {quote : Char} {cs rest : List Char} {p : Piece}
    (h : literal quote cs = .ok (p, rest)) : p.chars ++ rest = quote :: cs := by
  unfold literal at h
  cases hb : literalBody quote cs with
  | error => simp [hb, bind, Except.bind] at h
  | ok b =>
    simp only [hb, bind, Except.bind, pure, Except.pure] at h
    obtain ⟨rfl, rfl⟩ := Prod.mk.inj (Except.ok.inj h)
    simp [literalBody_append hb]

theorem name_append {cs rest : List Char} {p : Piece}
    (h : name cs = .ok (p, rest)) : p.chars ++ rest = cs := by
  unfold name at h
  split at h
  · next hs =>
    obtain ⟨rfl, rfl⟩ := Prod.mk.inj (Except.ok.inj h)
    exact segments_append hs
  · simp at h

theorem name_ne_nil {cs rest : List Char} {p : Piece} (hs : (segment cs).1 ≠ [])
    (h : name cs = .ok (p, rest)) : p.chars ≠ [] := by
  unfold name at h
  split at h
  · next words _ hw =>
    obtain ⟨rfl, rfl⟩ := Prod.mk.inj (Except.ok.inj h)
    obtain ⟨more, rfl⟩ := eq_cons_of_segments hw
    cases more <;> simp [hs]
  · simp at h

def punctuation : Char → Option Token
  | '\x7b' => some .openBrace
  | '\x7d' => some .closeBrace
  | '[' => some .openBracket
  | ']' => some .closeBracket
  | ';' => some .semicolon
  | _ => none

/-- The first piece of a text that is not empty. -/
def piece (c : Char) (cs : List Char) : Except Cause (Piece × List Char) :=
  match c, cs with
  | '/', '/' :: _ => .ok (lineComment (c :: cs))
  | '/', '*' :: body => blockComment body
  | _, _ =>
    if Text.isBlank c then .ok (blankPiece (c :: cs))
    else if c = '"' || c = '\'' then literal c cs
    else
      match punctuation c with
      | some token => .ok (⟨[c], some token⟩, cs)
      | none => if c = '.' then .error .strayDot else name (c :: cs)

theorem piece_append {c : Char} {cs rest : List Char} {p : Piece}
    (h : piece c cs = .ok (p, rest)) : p.chars ++ rest = c :: cs := by
  unfold piece at h
  split at h
  · obtain ⟨rfl, rfl⟩ := Prod.mk.inj (Except.ok.inj h)
    exact List.takeWhile_append_dropWhile
  · exact blockComment_append h
  · split at h
    · obtain ⟨rfl, rfl⟩ := Prod.mk.inj (Except.ok.inj h)
      exact List.takeWhile_append_dropWhile
    · split at h
      · exact literal_append h
      · split at h
        · obtain ⟨rfl, rfl⟩ := Prod.mk.inj (Except.ok.inj h)
          rfl
        · split at h
          · simp at h
          · exact name_append h

theorem ne_nil_of_piece {c : Char} {cs rest : List Char} {p : Piece}
    (h : piece c cs = .ok (p, rest)) : p.chars ≠ [] := by
  unfold piece at h
  split at h
  · obtain ⟨rfl, rfl⟩ := Prod.mk.inj (Except.ok.inj h)
    simp
  · unfold blockComment at h
    split at h
    · obtain ⟨rfl, rfl⟩ := Prod.mk.inj (Except.ok.inj h)
      simp
    · simp at h
  · next hline hblock =>
    split at h
    · next hb =>
      obtain ⟨rfl, rfl⟩ := Prod.mk.inj (Except.ok.inj h)
      simp [hb]
    · next hb =>
      split at h
      · unfold literal at h
        cases hl : literalBody c cs with
        | error => simp [hl, bind, Except.bind] at h
        | ok b =>
          simp only [hl, bind, Except.bind, pure, Except.pure] at h
          obtain ⟨rfl, rfl⟩ := Prod.mk.inj (Except.ok.inj h)
          simp
      · next hq =>
        split at h
        · obtain ⟨rfl, rfl⟩ := Prod.mk.inj (Except.ok.inj h)
          simp
        · next hp =>
          split at h
          · simp at h
          · next hd =>
            refine name_ne_nil (segment_ne_nil ?_ ?_) h
            · unfold punctuation at hp
              split at hp <;> simp_all [isWordCharacter, isSpecial]
            · unfold startsComment
              split <;> simp_all

/-- A fault and the bytes it concerns. -/
structure Fault where
  cause : Cause
  span : Span
  deriving Repr, DecidableEq

/-- The tokens of a text that stands at an offset, with the end of the script as the last. -/
def lexemes (offset : Nat) : List Char → Except Fault (List Lexeme)
  | [] => .ok [⟨.endOfScript, ⟨offset, offset⟩⟩]
  | c :: cs =>
    match _h : piece c cs with
    | .error cause => .error ⟨cause, cause.span offset (c :: cs)⟩
    | .ok (p, rest) => do
      let stop := offset + byteLength p.chars
      let more ← lexemes stop rest
      match p.token? with
      | some token => return ⟨token, ⟨offset, stop⟩⟩ :: more
      | none => return more
termination_by cs => cs.length
decreasing_by
  have hp := List.length_pos_iff.2 (ne_nil_of_piece _h)
  have := congrArg List.length (piece_append _h)
  simp only [List.length_append] at this
  omega

end ConceptScript.Lexer

namespace ConceptScript

/-- The tokens of a script. -/
def Script.lex (s : Script) : Except Diagnostic (List Lexeme) :=
  match Lexer.lexemes 0 s.chars with
  | .ok tokens => .ok tokens
  | .error fault => .error {
      code := .lexical
      message := fault.cause.message
      location := s.locate fault.span }

end ConceptScript
