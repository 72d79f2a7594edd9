import ConceptScript.Proofs.Token.Joining

namespace ConceptScript

namespace Position

def start : Position := ⟨1, 1⟩

def next (p : Position) (c : Char) : Position :=
  if c = '\n' then ⟨p.line + 1, 1⟩ else ⟨p.line, p.column + 1⟩

/-- The place reached after a number of bytes, by one pass over the text. -/
def walk : List Char → Nat → Position → Position
  | [], _, p => p
  | c :: cs, offset, p =>
    if offset = 0 then p
    else if c.utf8Size ≤ offset then walk cs (offset - c.utf8Size) (p.next c)
    else ⟨p.line, 1⟩

def clamp (p : Position) : Position := ⟨min p.line limit, min p.column limit⟩

theorem walk_min (cs : List Char) (offset : Nat) (p : Position) :
    walk cs (min offset (Lexer.byteLength cs)) p = walk cs offset p := by
  induction cs generalizing offset p with
  | nil => rfl
  | cons c cs ih =>
    have hc := c.utf8Size_pos
    rw [walk, walk, Lexer.byteLength_cons]
    by_cases hzero : offset = 0
    · simp [hzero]
    rw [if_neg hzero, if_neg (by omega)]
    by_cases hle : c.utf8Size ≤ offset
    · rw [if_pos hle, if_pos (by omega), ← ih (offset - c.utf8Size)]
      congr 1
      omega
    · rw [if_neg hle, if_neg (by omega)]

end Position

namespace Script

section Search

variable {xs : Array Nat} {x n base size : Nat}

/-- The window always holds the last of the numbers that are not above the one looked for. -/
theorem narrow_eq (hbelow : ∀ k < n, xs.getD k 0 ≤ x)
    (habove : ∀ k, n ≤ k → k < xs.size → x < xs.getD k 0)
    (hbase : base < n) (htop : n ≤ base + size) (hsize : base + size ≤ xs.size) :
    narrow xs x base size = n - 1 := by
  fun_induction narrow xs x base size with
  | case1 base size hone => omega
  | case2 base size hone half ih =>
    have hhalf : half = size / 2 := rfl
    split at ih
    · next hlt =>
      have hmid : n ≤ base + half := by
        by_contra h
        have := hbelow (base + half) (by omega)
        omega
      rw [if_pos hlt]
      exact ih hbase (by omega) (by omega)
    · next hle =>
      have hmid : base + half < n := by
        by_contra h
        have := habove (base + half) (by omega) (by omega)
        omega
      rw [if_neg hle]
      exact ih hmid (by omega) (by omega)

theorem binarySearch_eq (hbelow : ∀ k < n, xs.getD k 0 ≤ x)
    (habove : ∀ k, n ≤ k → k < xs.size → x < xs.getD k 0)
    (hpos : 0 < n) (htop : n ≤ xs.size) :
    binarySearch xs x = .ok (n - 1) ∨ binarySearch xs x = .error n := by
  have hempty : xs.isEmpty = false := by
    rw [Array.isEmpty_eq_false_iff, ← Array.size_pos_iff]
    omega
  have hle := hbelow (n - 1) (by omega)
  unfold binarySearch
  rw [hempty, narrow_eq hbelow habove hpos (by omega) (by omega)]
  by_cases heq : xs.getD (n - 1) 0 = x
  · exact .inl (if_pos heq)
  · refine .inr ?_
    simp only [Bool.false_eq_true, if_false, if_neg heq]
    rw [if_pos (by omega), Nat.sub_add_cancel hpos]

end Search

theorem dropBytes_append (front rest : List Char) :
    dropBytes (front ++ rest) (Lexer.byteLength front) = some rest := by
  induction front with
  | nil => rw [List.nil_append, Lexer.byteLength_nil, dropBytes]
  | cons c front ih =>
    have hc := c.utf8Size_pos
    obtain ⟨n, hn⟩ : ∃ n, Lexer.byteLength (c :: front) = n + 1 :=
      Nat.exists_eq_succ_of_ne_zero (by rw [Lexer.byteLength_cons]; omega)
    rw [List.cons_append, hn, dropBytes, ← hn, Lexer.byteLength_cons, if_pos (by omega),
      Nat.add_sub_cancel_left, ih]
    exact Nat.succ_ne_zero n

theorem takeBytes_append (front rest : List Char) (n : Nat) :
    takeBytes (front ++ rest) (Lexer.byteLength front + n) =
      (takeBytes rest n).map (front ++ ·) := by
  induction front with
  | nil => simp only [List.nil_append, Lexer.byteLength_nil, Nat.zero_add, Option.map_id']
  | cons c front ih =>
    have hc := c.utf8Size_pos
    obtain ⟨k, hk⟩ : ∃ k, Lexer.byteLength (c :: front) + n = k + 1 :=
      Nat.exists_eq_succ_of_ne_zero (by rw [Lexer.byteLength_cons]; omega)
    rw [List.cons_append, hk, takeBytes, ← hk, Lexer.byteLength_cons, if_pos (by omega),
      Nat.add_assoc, Nat.add_sub_cancel_left, ih, Option.map_map]
    · rfl
    · exact Nat.succ_ne_zero k

theorem lt_of_mem_breaks {i b : Nat} {cs : List Char} (h : b ∈ breaks i cs) : i < b := by
  induction cs generalizing i with
  | nil => cases h
  | cons c cs ih =>
    have hc := c.utf8Size_pos
    have hrest (h : b ∈ breaks (i + c.utf8Size) cs) : i < b := by
      have := ih h
      omega
    rw [breaks] at h
    split at h
    · rcases List.mem_cons.mp h with rfl | h
      · omega
      · exact hrest h
    · exact hrest h

theorem le_of_mem_breaks_cons {i b : Nat} {c : Char} {cs : List Char}
    (h : b ∈ breaks i (c :: cs)) : i + c.utf8Size ≤ b := by
  rw [breaks] at h
  split at h
  · rcases List.mem_cons.mp h with rfl | h
    · exact Nat.le_refl _
    · exact Nat.le_of_lt (lt_of_mem_breaks h)
  · exact Nat.le_of_lt (lt_of_mem_breaks h)

/-- Inside of the next character the column starts again. -/
theorem walk_of_lt {c : Char} {n : Nat} (h : n < c.utf8Size) (line cs : List Char)
    (number : Nat) :
    Position.walk (c :: cs) n ⟨number, line.length + 1⟩ = ⟨number,
      (((takeBytes (c :: cs) n).map (line ++ ·)).map List.length).getD 0 + 1⟩ := by
  cases n with
  | zero => simp [Position.walk, takeBytes]
  | succ n =>
    rw [Position.walk, if_neg (Nat.succ_ne_zero n), if_neg (Nat.not_le_of_lt h), takeBytes,
      if_neg (Nat.not_le_of_lt h)]
    · rfl
    · exact Nat.succ_ne_zero n

theorem slice_line (front line rest : List Char) {offset : Nat}
    (h : Lexer.byteLength (front ++ line) ≤ offset) :
    slice (front ++ line ++ rest) (Lexer.byteLength front) offset =
      (takeBytes rest (offset - Lexer.byteLength (front ++ line))).map (line ++ ·) := by
  obtain ⟨n, rfl⟩ := Nat.exists_eq_add_of_le h
  rw [Nat.add_sub_cancel_left, slice, List.append_assoc, dropBytes_append, Option.bind_some,
    Lexer.byteLength_append, Nat.add_assoc, Nat.add_sub_cancel_left, takeBytes_append]

/-- One pass through the rest of a text, in which a line has begun, comes to the last break that is
not behind the offset, and then to the characters since. -/
theorem exists_breaks {text cs : List Char} {i offset : Nat} (front line : List Char)
    (number : Nat) (htext : text = front ++ line ++ cs) (hi : i = Lexer.byteLength (front ++ line))
    (hstart : i ≤ offset) (hstop : offset ≤ i + Lexer.byteLength cs) :
    ∃ passed left, breaks i cs = passed ++ left ∧ (∀ b ∈ passed, b ≤ offset) ∧
      (∀ b ∈ left, offset < b) ∧
      Position.walk cs (offset - i) ⟨number, line.length + 1⟩ = ⟨number + passed.length,
        ((slice text (passed.getLast?.getD (Lexer.byteLength front)) offset).map
          List.length).getD 0 + 1⟩ := by
  induction cs generalizing front line number i with
  | nil =>
    have hoffset : offset - i = 0 := Nat.sub_eq_zero_of_le hstop
    refine ⟨[], [], rfl, by simp, by simp, ?_⟩
    rw [List.getLast?_nil, Option.getD_none, htext, slice_line _ _ _ (hi ▸ hstart), ← hi, hoffset]
    simp [Position.walk, takeBytes]
  | cons c cs ih =>
    have hc := c.utf8Size_pos
    rw [Lexer.byteLength_cons] at hstop
    have hslice := slice_line front line (c :: cs) (hi ▸ hstart)
    rw [← htext, ← hi] at hslice
    by_cases hle : c.utf8Size ≤ offset - i
    · have hnext : i + c.utf8Size = Lexer.byteLength (front ++ line ++ [c]) := by
        rw [Lexer.byteLength_append, ← hi, Lexer.byteLength_cons]
        rfl
      rw [Position.walk, if_neg (by omega), if_pos hle, Nat.sub_sub, Position.next, breaks]
      by_cases hbreak : c = '\n'
      · obtain ⟨passed, left, hbreaks, hpassed, hleft, hwalk⟩ :=
          ih (front ++ line ++ [c]) [] (number + 1) (by simp [htext])
            (hnext.trans (by rw [List.append_nil])) (by omega) (by omega)
        refine ⟨(i + c.utf8Size) :: passed, left, ?_, ?_, hleft, ?_⟩
        · simp only [if_pos hbreak, hbreaks, List.cons_append]
        · exact List.forall_mem_cons.mpr ⟨by omega, hpassed⟩
        · rw [← hnext, List.length_nil] at hwalk
          rw [if_pos hbreak, List.getLast?_cons, Option.getD_some, List.length_cons, hwalk,
            Nat.add_assoc, Nat.add_comm 1]
      · obtain ⟨passed, left, hbreaks, hpassed, hleft, hwalk⟩ :=
          ih front (line ++ [c]) number (by simp [htext])
            (hnext.trans (by rw [List.append_assoc])) (by omega) (by omega)
        rw [List.length_append] at hwalk
        refine ⟨passed, left, ?_, hpassed, hleft, ?_⟩
        · simp only [if_neg hbreak, hbreaks]
        · rw [if_neg hbreak]
          exact hwalk
    · -- The pass ends before the character or inside of it, and no break comes before its end.
      refine ⟨[], breaks i (c :: cs), rfl, by simp, ?_, ?_⟩
      · intro b hb
        have := le_of_mem_breaks_cons hb
        omega
      · rw [List.getLast?_nil, Option.getD_none, hslice]
        exact walk_of_lt (Nat.lt_of_not_le hle) line cs number

section Starts

variable {passed left : List Nat}

theorem getD_starts (start : Nat) :
    (start :: (passed ++ left)).toArray.getD passed.length 0 = passed.getLast?.getD start := by
  rw [Array.getD_eq_getD_getElem?, List.getElem?_toArray]
  induction passed generalizing start with
  | nil => rfl
  | cons b passed ih =>
    rw [List.getLast?_cons, Option.getD_some, ← ih b]
    rfl

theorem binarySearch_starts {offset : Nat} (hpassed : ∀ b ∈ passed, b ≤ offset)
    (hleft : ∀ b ∈ left, offset < b) :
    binarySearch (0 :: (passed ++ left)).toArray offset = .ok passed.length ∨
      binarySearch (0 :: (passed ++ left)).toArray offset = .error (passed.length + 1) := by
  refine binarySearch_eq (n := passed.length + 1) ?_ ?_ (Nat.succ_pos _) (by simp)
  · intro k hk
    rw [Array.getD_eq_getD_getElem?, List.getElem?_toArray]
    cases k with
    | zero => exact Nat.zero_le offset
    | succ k =>
      have hk : k < passed.length := Nat.lt_of_succ_lt_succ hk
      rw [List.getElem?_cons_succ, List.getElem?_append_left hk, List.getElem?_eq_getElem hk]
      exact hpassed _ (List.getElem_mem hk)
  · intro k hle hk
    obtain ⟨j, rfl⟩ := Nat.exists_eq_add_of_le hle
    have hj : j < left.length := by
      simp only [List.size_toArray, List.length_cons, List.length_append] at hk
      omega
    rw [Array.getD_eq_getD_getElem?, List.getElem?_toArray, Nat.add_right_comm,
      List.getElem?_cons_succ, List.getElem?_append_right (Nat.le_add_right _ _),
      Nat.add_sub_cancel_left, List.getElem?_eq_getElem hj]
    exact hleft _ (List.getElem_mem hj)

end Starts

/-- The table of line starts and the search in it show what one pass over the text shows. -/
theorem position_eq_walk (s : Script) (offset : Nat) :
    s.position offset = (Position.start.walk s.chars offset).clamp := by
  rw [← Position.walk_min, byteLength_chars, position]
  generalize hclip : min offset s.text.utf8ByteSize = clipped
  have hstop : clipped ≤ 0 + Lexer.byteLength s.chars := by
    rw [byteLength_chars]
    omega
  obtain ⟨passed, left, hbreaks, hpassed, hleft, hwalk⟩ :=
    exists_breaks (i := 0) [] [] 1 rfl rfl (Nat.zero_le clipped) hstop
  have hindex : s.lineIndex clipped = passed.length := by
    rw [lineIndex, lineStarts, hbreaks]
    rcases binarySearch_starts hpassed hleft with h | h
    · rw [h]
    · rw [h]
      rfl
  have hstart : s.lineStarts.getD passed.length 0 = passed.getLast?.getD 0 := by
    rw [lineStarts, hbreaks, getD_starts]
  rw [Nat.sub_zero, List.length_nil, List.nil_append, Nat.add_comm 1] at hwalk
  rw [hindex, hstart, Position.start, hwalk]
  rfl

end Script

end ConceptScript
