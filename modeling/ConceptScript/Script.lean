namespace ConceptScript

/-- A place in a script; lines and columns count from one, and columns count characters. -/
structure Position where
  line : Nat
  column : Nat
  deriving Repr, DecidableEq, Inhabited

/-- Lines and columns are kept in 32 bits and stop at the largest number. -/
def Position.limit : Nat := 4294967295

/-- A stretch of a named script. -/
structure Location where
  file : String
  start : Position
  stop : Position
  deriving Repr, DecidableEq, Inhabited

def Location.display (l : Location) : String :=
  s!"{l.file}:{l.start.line}:{l.start.column}"

/-- A half-open range of byte offsets. -/
structure Span where
  start : Nat
  stop : Nat
  deriving Repr, DecidableEq, Inhabited

structure Script where
  name : String
  chars : List Char
  deriving Repr, DecidableEq, Inhabited

namespace Script

def ofText (name text : String) : Script := ⟨name, text.toList⟩

def text (s : Script) : String := .ofList s.chars

/-- The offsets behind the line feeds of a text that starts at an offset. -/
def breaks (offset : Nat) : List Char → List Nat
  | [] => []
  | c :: cs =>
    let stop := offset + c.utf8Size
    if c = '\n' then stop :: breaks stop cs else breaks stop cs

/-- The offset of the first character of every line. -/
def lineStarts (s : Script) : Array Nat := (0 :: breaks 0 s.chars).toArray

/-- Halves a window of an ascending array until one index is left. -/
def narrow (xs : Array Nat) (x base size : Nat) : Nat :=
  if size ≤ 1 then base
  else
    let half := size / 2
    narrow xs x (if x < xs.getD (base + half) 0 then base else base + half) (size - half)
termination_by size

/-- The index of a number in an ascending array, or the one that it would be inserted at. -/
def binarySearch (xs : Array Nat) (x : Nat) : Except Nat Nat :=
  if xs.isEmpty then .error 0
  else
    let i := narrow xs x 0 xs.size
    let found := xs.getD i 0
    if found = x then .ok i else if found < x then .error (i + 1) else .error i

/-- The index of the line that an offset is on. -/
def lineIndex (s : Script) (offset : Nat) : Nat :=
  match binarySearch s.lineStarts offset with
  | .ok i => i
  | .error i => i - 1

/-- What follows the first bytes of a text, if these end between two characters. -/
def dropBytes : List Char → Nat → Option (List Char)
  | cs, 0 => some cs
  | [], _ => none
  | c :: cs, n => if c.utf8Size ≤ n then dropBytes cs (n - c.utf8Size) else none

/-- The first bytes of a text, if these end between two characters. -/
def takeBytes : List Char → Nat → Option (List Char)
  | _, 0 => some []
  | [], _ => none
  | c :: cs, n =>
    if c.utf8Size ≤ n then (takeBytes cs (n - c.utf8Size)).map (c :: ·) else none

/-- The characters between two offsets, if these are between characters. -/
def slice (cs : List Char) (start stop : Nat) : Option (List Char) :=
  (dropBytes cs start).bind (takeBytes · (stop - start))

/-- An offset inside a character is shown at the first column of its line, and one past the end
at the end. -/
def position (s : Script) (offset : Nat) : Position :=
  let offset := min offset s.text.utf8ByteSize
  let index := s.lineIndex offset
  let start := s.lineStarts.getD index 0
  let column := ((slice s.chars start offset).map List.length).getD 0
  ⟨min (index + 1) Position.limit, min (column + 1) Position.limit⟩

def locate (s : Script) (span : Span) : Location :=
  ⟨s.name, s.position span.start, s.position span.stop⟩

end Script

end ConceptScript
