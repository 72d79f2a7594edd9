import ConceptScript.Proofs.Token.LineTable
import ConceptScript.Proofs.Token.Positions

namespace ConceptScript

namespace Position

/-- By line and then by column. -/
instance : LT Position := ⟨fun p q => p.line < q.line ∨ p.line = q.line ∧ p.column < q.column⟩

instance : LE Position := ⟨fun p q => p.line < q.line ∨ p.line = q.line ∧ p.column ≤ q.column⟩

variable {p q r : Position}

theorem lt_iff : p < q ↔ p.line < q.line ∨ p.line = q.line ∧ p.column < q.column := Iff.rfl

theorem le_iff : p ≤ q ↔ p.line < q.line ∨ p.line = q.line ∧ p.column ≤ q.column := Iff.rfl

theorem lt_trans (h : p < q) (h' : q < r) : p < r := by
  rw [lt_iff] at *
  omega

theorem ne_of_lt (h : p < q) : p ≠ q := by
  rintro rfl
  rw [lt_iff] at h
  omega

theorem le_of_lt (h : p < q) : p ≤ q := by
  rw [lt_iff] at h
  rw [le_iff]
  omega

theorem le_refl (p : Position) : p ≤ p := .inr ⟨rfl, Nat.le_refl _⟩

theorem lt_next (p : Position) (c : Char) : p < p.next c := by
  rw [lt_iff, next]
  split
  · exact .inl (Nat.lt_succ_self _)
  · exact .inr ⟨rfl, Nat.lt_succ_self _⟩

theorem lt_foldl_next {cs : List Char} (h : cs ≠ []) (p : Position) : p < cs.foldl next p := by
  induction cs generalizing p with
  | nil => exact absurd rfl h
  | cons c cs ih =>
    rw [List.foldl_cons]
    by_cases hcs : cs = []
    · rw [hcs]
      exact p.lt_next c
    · exact lt_trans (p.lt_next c) (ih hcs _)

/-- The place behind a text at the start of a script. -/
def behind (cs : List Char) : Position :=
  ⟨1 + cs.count '\n', 1 + (cs.reverse.takeWhile (· != '\n')).length⟩

theorem behind_concat (cs : List Char) (c : Char) : behind (cs ++ [c]) = (behind cs).next c := by
  unfold behind next
  split
  · next hc => simp [hc, Nat.add_assoc]
  · next hc => simp [hc, Nat.add_assoc]

theorem foldl_next_start (cs : List Char) : cs.foldl next start = behind cs := by
  induction cs using List.reverseRecOn with
  | nil => rfl
  | append_singleton cs c ih => rw [List.foldl_concat, ih, behind_concat]

theorem walk_append (front rest : List Char) (p : Position) :
    walk (front ++ rest) (Lexer.byteLength front) p = front.foldl next p := by
  induction front generalizing p with
  | nil => cases rest <;> simp [walk]
  | cons c front ih =>
    have hc := c.utf8Size_pos
    rw [List.cons_append, walk, Lexer.byteLength_cons, if_neg (by omega), if_pos (by omega),
      Nat.add_sub_cancel_left, ih, List.foldl_cons]

theorem walk_of_le {cs : List Char} {offset : Nat} (h : Lexer.byteLength cs ≤ offset)
    (p : Position) : walk cs offset p = cs.foldl next p := by
  induction cs generalizing offset p with
  | nil => rfl
  | cons c cs ih =>
    have hc := c.utf8Size_pos
    rw [Lexer.byteLength_cons] at h
    rw [walk, if_neg (by omega), if_pos (by omega), ih (by omega), List.foldl_cons]

end Position

theorem Lexer.length_le_byteLength (cs : List Char) : cs.length ≤ byteLength cs := by
  induction cs with
  | nil => exact Nat.le_refl _
  | cons c cs ih =>
    have hc := c.utf8Size_pos
    rw [byteLength_cons, List.length_cons]
    omega

theorem Position.clamp_behind {cs : List Char} (h : Lexer.byteLength cs < limit) :
    (behind cs).clamp = behind cs := by
  have hlength := Lexer.length_le_byteLength cs
  have hline : cs.count '\n' ≤ cs.length := List.count_le_length
  have hcolumn : (cs.reverse.takeWhile (· != '\n')).length ≤ cs.length := by
    simpa using (List.takeWhile_prefix (l := cs.reverse) (· != '\n')).length_le
  have hmin {n : Nat} (hn : n ≤ cs.length) : min (1 + n) limit = 1 + n :=
    Nat.min_eq_left (by omega)
  rw [behind, clamp, hmin hline, hmin hcolumn]

namespace Lexer

variable {text front : List Char}

/-- A dangling dot stands right behind the segments that were read, and there is at least one. -/
theorem exists_of_segments_error {cs : List Char} {words : List String}
    (h : segments cs = .error words) :
    ∃ w ws rest, words = w :: ws ∧ cs = (".".intercalate words).toList ++ '.' :: rest := by
  induction hn : cs.length using Nat.strongRecOn generalizing cs words with
  | ind n ih =>
    have hc := segment_append cs
    rw [segments] at h
    split at h
    · next d tail heq =>
      rw [heq] at hc
      split at h
      · split at h
        · cases h
        · next more hmore =>
          obtain rfl := Except.error.inj h
          have hlen : (d :: tail).length < n := by
            have := congrArg List.length hc
            simp only [List.length_append, List.length_cons] at this ⊢
            omega
          obtain ⟨w, ws, rest, rfl, hrest⟩ := ih _ hlen hmore rfl
          refine ⟨_, _, rest, rfl, hc.symm.trans ?_⟩
          rw [hrest, String.intercalate_cons_cons]
          simp
      · obtain rfl := Except.error.inj h
        exact ⟨_, _, d :: tail, rfl, hc.symm.trans (by simp)⟩
    · next heq =>
      obtain rfl := Except.error.inj h
      rw [heq] at hc
      exact ⟨_, _, [], rfl, hc.symm.trans (by simp)⟩
    · cases h

theorem byteLength_toList (s : String) : byteLength s.toList = s.utf8ByteSize := by
  have h := Script.byteLength_chars (.ofText "" s)
  simpa [Script.ofText, Script.text] using h

theorem literalBody_error {quote : Char} {cs : List Char} {cause : Cause}
    (h : literalBody quote cs = .error cause) :
    cause = .unterminatedLiteral ∨ cause = .unterminatedEscape := by
  induction cs using literalBody.induct quote with
  | case1 => exact .inl (Except.error.inj h).symm
  | case2 => exact .inr (Except.error.inj h).symm
  | case3 e cs ih =>
    simp only [literalBody] at h
    cases hb : literalBody quote cs with
    | error => simp_all [bind, Except.bind]
    | ok => simp [hb, bind, Except.bind, pure, Except.pure] at h
  | case4 cs => simp_all [literalBody]
  | case5 c cs _ _ hq ih =>
    simp only [literalBody, hq, if_false] at h
    cases hb : literalBody quote cs with
    | error => simp_all [bind, Except.bind]
    | ok => simp [hb, bind, Except.bind, pure, Except.pure] at h

/-- What is wrong with a piece: it does not end, or there is a dot in it. -/
theorem piece_error {c : Char} {cs : List Char} {cause : Cause} (h : piece c cs = .error cause) :
    cause = .unterminatedComment ∨ cause = .unterminatedLiteral ∨ cause = .unterminatedEscape ∨
      (cause = .strayDot ∧ c = '.') ∨
      ∃ words, cause = .danglingDot words ∧ segments (c :: cs) = .error words := by
  unfold piece at h
  split at h
  · cases h
  · unfold blockComment at h
    split at h
    · cases h
    · exact .inl (Except.error.inj h).symm
  · split at h
    · cases h
    · split at h
      · unfold literal at h
        cases hb : literalBody c cs with
        | ok => simp [hb, bind, Except.bind, pure, Except.pure] at h
        | error cause' =>
          simp only [hb, bind, Except.bind] at h
          obtain rfl := Except.error.inj h
          rcases literalBody_error hb with rfl | rfl
          · exact .inr (.inl rfl)
          · exact .inr (.inr (.inl rfl))
      · split at h
        · cases h
        · split at h
          · next hc => exact .inr (.inr (.inr (.inl ⟨(Except.error.inj h).symm, hc⟩)))
          · unfold name at h
            split at h
            · cases h
            · next words hwords =>
              exact .inr (.inr (.inr (.inr ⟨words, (Except.error.inj h).symm, hwords⟩)))

theorem exists_slices_of_piece {c : Char} {cs : List Char} {cause : Cause}
    (h : piece c cs = .error cause) (htext : text = front ++ c :: cs) :
    ∃ before slice after,
      Slices text (cause.span (byteLength front) (c :: cs)) before slice after ∧ slice ≠ [] := by
  have hrest : ∃ before slice after, Slices text
      ⟨byteLength front, byteLength front + byteLength (c :: cs)⟩ before slice after ∧ slice ≠ [] :=
    ⟨front, c :: cs, [], ⟨by simp [htext], rfl, by rw [byteLength_append]⟩, List.cons_ne_nil _ _⟩
  have hdot : byteLength ['.'] = 1 := rfl
  rcases piece_error h with rfl | rfl | rfl | ⟨rfl, rfl⟩ | ⟨words, rfl, hwords⟩
  · exact hrest
  · exact hrest
  · exact hrest
  · exact ⟨front, ['.'], cs, ⟨by simp [htext], rfl, by rw [byteLength_append, hdot]; rfl⟩,
      List.cons_ne_nil _ _⟩
  · obtain ⟨_, _, rest, _, hcs⟩ := exists_of_segments_error hwords
    refine ⟨front ++ (".".intercalate words).toList, ['.'], rest,
      ⟨by simp [htext, hcs], ?_, ?_⟩, List.cons_ne_nil _ _⟩
    · rw [byteLength_append, byteLength_toList]
      rfl
    · rw [byteLength_append, byteLength_append, byteLength_toList, hdot]
      rfl

theorem exists_slices_of_fault {cs : List Char} (htext : text = front ++ cs) {fault : Fault}
    (h : lexemes (byteLength front) cs = .error fault) :
    ∃ before slice after, Slices text fault.span before slice after ∧ slice ≠ [] := by
  induction hn : cs.length using Nat.strongRecOn generalizing front cs with
  | ind n ih =>
    cases cs with
    | nil =>
      rw [lexemes] at h
      cases h
    | cons c cs =>
      cases hp : piece c cs with
      | error cause =>
        rw [lexemes_of_error hp] at h
        obtain rfl := Except.error.inj h
        exact exists_slices_of_piece hp htext
      | ok result =>
        obtain ⟨p, rest⟩ := result
        rw [lexemes_piece hp] at h
        cases hmore : lexemes (byteLength front + byteLength p.chars) rest with
        | ok more =>
          rw [hmore] at h
          cases h
        | error later =>
          rw [hmore] at h
          obtain rfl := Except.error.inj h
          rw [← byteLength_append] at hmore
          rw [← piece_append hp, ← List.append_assoc] at htext
          exact ih rest.length (hn ▸ length_lt_of_piece hp) htext hmore rfl

theorem Laid.exists_slices {tokens : List Lexeme} (h : Laid text front tokens) :
    ∀ l ∈ tokens, ∃ before slice after, Slices text l.span before slice after := by
  induction h with
  | finish =>
    refine List.forall_mem_singleton.mpr ⟨text, [], [], ⟨by simp, rfl, by simp⟩⟩
  | token htext _ _ _ _ _ ih =>
    exact List.forall_mem_cons.mpr ⟨⟨_, _, _, ⟨htext, rfl, rfl⟩⟩, ih⟩

end Lexer

namespace Script

/-- Between two characters, or at one of the ends. -/
def IsBoundary (s : Script) (offset : Nat) : Prop :=
  ∃ before after, s.chars = before ++ after ∧ offset = Lexer.byteLength before

/-- The offsets at which tokens start and stop. -/
def offsets (tokens : List Lexeme) : List Nat :=
  tokens.flatMap fun l => [l.span.start, l.span.stop]

variable {s : Script}

theorem isBoundary_of_slices {span : Span} {before slice after : List Char}
    (h : Lexer.Slices s.chars span before slice after) :
    s.IsBoundary span.start ∧ s.IsBoundary span.stop :=
  ⟨⟨before, slice ++ after, by rw [h.text_eq, List.append_assoc], h.start_eq⟩,
    ⟨before ++ slice, after, h.text_eq, h.stop_eq⟩⟩

theorem isBoundary_of_mem_offsets {tokens : List Lexeme} (h : s.lex = .ok tokens) :
    ∀ offset ∈ offsets tokens, s.IsBoundary offset := by
  have hlaid : Lexer.Laid s.chars [] tokens := Lexer.laid_of_lexemes rfl (lex_eq_ok.mp h)
  intro offset hoffset
  obtain ⟨l, hl, hoffset⟩ := List.mem_flatMap.mp hoffset
  obtain ⟨before, slice, after, hslices⟩ := hlaid.exists_slices l hl
  obtain ⟨hstart, hstop⟩ := isBoundary_of_slices hslices
  rcases List.mem_pair.mp hoffset with rfl | rfl
  · exact hstart
  · exact hstop

section Limit

variable (hsize : s.text.utf8ByteSize < Position.limit)
include hsize

theorem position_of_append {before after : List Char} (h : s.chars = before ++ after) :
    s.position (Lexer.byteLength before) = Position.behind before := by
  have hbefore : Lexer.byteLength before < Position.limit := by
    rw [← byteLength_chars, h, Lexer.byteLength_append] at hsize
    omega
  rw [position_eq_walk, h, Position.walk_append, Position.foldl_next_start,
    Position.clamp_behind hbefore]

theorem position_lt {a b : Nat} (ha : s.IsBoundary a) (hb : s.IsBoundary b) (hab : a < b) :
    s.position a < s.position b := by
  obtain ⟨before, after, hbefore, rfl⟩ := ha
  obtain ⟨front, rest, hfront, rfl⟩ := hb
  rw [position_of_append hsize hbefore, position_of_append hsize hfront]
  -- The longer text goes on behind the shorter one.
  rcases List.append_eq_append_iff.mp (hbefore.symm.trans hfront) with
    ⟨more, rfl, _⟩ | ⟨more, rfl, _⟩
  · have hmore : more ≠ [] := by
      rintro rfl
      simp at hab
    rw [← Position.foldl_next_start, ← Position.foldl_next_start, List.foldl_append]
    exact Position.lt_foldl_next hmore _
  · rw [Lexer.byteLength_append] at hab
    omega

theorem position_le {a b : Nat} (ha : s.IsBoundary a) (hb : s.IsBoundary b) (hab : a ≤ b) :
    s.position a ≤ s.position b := by
  rcases Nat.lt_or_eq_of_le hab with hlt | rfl
  · exact Position.le_of_lt (position_lt hsize ha hb hlt)
  · exact Position.le_refl _

theorem position_ne {a b : Nat} (ha : s.IsBoundary a) (hb : s.IsBoundary b) (hab : a ≠ b) :
    s.position a ≠ s.position b := by
  rcases Nat.lt_or_gt_of_ne hab with hlt | hgt
  · exact Position.ne_of_lt (position_lt hsize ha hb hlt)
  · exact (Position.ne_of_lt (position_lt hsize hb ha hgt)).symm

end Limit

/-- In a script whose lines and columns can be counted, an offset past the end is shown at the end.
An offset between characters is shown by the line feeds before it and the characters since the last
of them, so offsets are shown in their order, and what is said of tokens and of lexical faults is
shown from a start to an end. -/
theorem position_exact {s : Script} (hsize : s.text.utf8ByteSize < Position.limit) :
    (∀ offset, s.text.utf8ByteSize ≤ offset →
      s.position offset = s.position s.text.utf8ByteSize) ∧
    (∀ before after, s.chars = before ++ after → s.position (Lexer.byteLength before) =
      ⟨1 + before.count '\n', 1 + (before.reverse.takeWhile (· != '\n')).length⟩) ∧
    (∀ a b, s.IsBoundary a → s.IsBoundary b → a < b → s.position a < s.position b) ∧
    (∀ tokens, s.lex = .ok tokens → ∀ a ∈ offsets tokens, ∀ b ∈ offsets tokens,
      (a ≤ b → (s.locate ⟨a, b⟩).start ≤ (s.locate ⟨a, b⟩).stop) ∧
      (a ≠ b → s.position a ≠ s.position b)) ∧
    ∀ d, s.lex = .error d → ∃ l, d.location = some l ∧ l.start < l.stop := by
  refine ⟨?_, ?_, fun a b => position_lt hsize, ?_, ?_⟩
  · intro offset hoffset
    rw [← byteLength_chars] at hoffset ⊢
    rw [position_eq_walk, position_eq_walk, Position.walk_of_le hoffset,
      Position.walk_of_le (Nat.le_refl _)]
  · exact fun before after => position_of_append hsize
  · intro tokens htokens a ha b hb
    have ha := isBoundary_of_mem_offsets htokens a ha
    have hb := isBoundary_of_mem_offsets htokens b hb
    exact ⟨position_le hsize ha hb, position_ne hsize ha hb⟩
  · intro d hd
    obtain ⟨fault, hfault, rfl⟩ := lex_eq_error.mp hd
    have hfront : s.chars = [] ++ s.chars := rfl
    obtain ⟨before, slice, after, hslices, hne⟩ := Lexer.exists_slices_of_fault hfront hfault
    obtain ⟨hstart, hstop⟩ := isBoundary_of_slices hslices
    refine ⟨_, rfl, position_lt hsize hstart hstop ?_⟩
    have hslice := Lexer.byteLength_pos hne
    rw [hslices.start_eq, hslices.stop_eq, Lexer.byteLength_append]
    omega

/-- A letter of two bytes, an empty line, and a literal over two lines. -/
theorem position_exact_lines :
    let s := Script.ofText "lines" "é b\n\n'c\nd'"
    s.text.utf8ByteSize < Position.limit ∧ s.position 100 = s.position 11 ∧
      s.position 6 = ⟨3, 1⟩ ∧ s.position 4 < s.position 5 ∧
      s.lex = .ok [⟨.word "é", 0, 2⟩, ⟨.word "b", 3, 4⟩, ⟨.quoted "c\nd", 6, 11⟩,
        ⟨.endOfScript, 11, 11⟩] ∧
      (s.locate ⟨0, 11⟩).start ≤ (s.locate ⟨0, 11⟩).stop := by
  intro s
  have hsize : s.text.utf8ByteSize < Position.limit := by decide +kernel
  have hlex : s.lex = .ok [⟨.word "é", 0, 2⟩, ⟨.word "b", 3, 4⟩, ⟨.quoted "c\nd", 6, 11⟩,
      ⟨.endOfScript, 11, 11⟩] := by decide +kernel
  obtain ⟨hpast, hcounts, hlt, htokens, _⟩ := position_exact hsize
  refine ⟨hsize, hpast 100 (by decide +kernel), hcounts "é b\n\n".toList "'c\nd'".toList rfl,
    hlt 4 5 ⟨"é b".toList, "\n\n'c\nd'".toList, rfl, rfl⟩
      ⟨"é b\n".toList, "\n'c\nd'".toList, rfl, rfl⟩ (by decide), hlex,
    (htokens _ hlex 0 (by decide) 11 (by decide)).1 (by decide)⟩

end Script

end ConceptScript
