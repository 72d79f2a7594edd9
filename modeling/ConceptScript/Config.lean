import ConceptScript.Options
import ConceptScript.Tag
import ConceptScript.Text.Lines

/-!
The settings file: tables with lines of the form `key = value`, where a value is an integer, a
boolean or a string, and comments behind a number sign.
-/

namespace ConceptScript

structure Config where
  options : Options := {}
  generation : GenerationOptions := {}
  deriving Repr, DecidableEq, Inhabited

namespace Config

inductive Fault where
  | malformed (line : Nat)
  | unknownTable (name : String)
  | repeatedTable (name : String)
  | noTable (key : String)
  | unknownKey (table key : String)
  | repeatedKey (table key : String)
  | wrongType (key : String)
  deriving Repr, DecidableEq

def Fault.message : Fault → String
  | malformed line => s!"line {line} is malformed"
  | unknownTable name => s!"unknown table '{name}'"
  | repeatedTable name => s!"table '{name}' is given twice"
  | noTable key => s!"key '{key}' is in no table"
  | unknownKey table key => s!"unknown key '{key}' in table '{table}'"
  | repeatedKey table key => s!"key '{key}' is given twice in table '{table}'"
  | wrongType key => s!"key '{key}' has a value of the wrong type"

inductive Setting where
  | integer (n : Int)
  | bool (b : Bool)
  | text (s : String)
  deriving Repr, DecidableEq

inductive Line where
  | blank
  | table (name : String)
  | assignment (key : String) (value : Setting)
  deriving Repr, DecidableEq

def isSpace (c : Char) : Bool := c == ' ' || c == '\t'

def skipSpace (cs : List Char) : List Char := cs.dropWhile isSpace

/-- Whether nothing follows but blanks and a comment. -/
def endsHere (cs : List Char) : Bool :=
  match skipSpace cs with
  | [] => true
  | c :: _ => c == '#'

def isKeyCharacter (c : Char) : Bool := c.isAlphanum || c == '_' || c == '-'

/-- A key in bare characters, and the text after it. -/
def bareKey (cs : List Char) : Option (String × List Char) :=
  match cs.takeWhile isKeyCharacter with
  | [] => none
  | key => some (.ofList key, cs.dropWhile isKeyCharacter)

/-- The value of a digit, of either case. -/
def digitValue (c : Char) : Nat :=
  if c.isDigit then c.toNat - 48
  else if 'a' ≤ c && c ≤ 'f' then c.toNat - 87
  else if 'A' ≤ c && c ≤ 'F' then c.toNat - 55
  else 16

/-- The number that digits of a base spell. -/
def number (base : Nat) (cs : List Char) : Option Nat :=
  if cs.all fun c => digitValue c < base then
    some (cs.foldl (fun n c => base * n + digitValue c) 0)
  else none

def codePoint (cs : List Char) : Option Char := do
  let n ← number 16 cs
  if n < 0xD800 || (0xDFFF < n && n < 0x110000) then some (Char.ofNat n) else none

/-- The character behind a backslash and a letter. -/
def escape : Char → Option Char
  | 'b' => some '\x08'
  | 't' => some '\t'
  | 'n' => some '\n'
  | 'f' => some '\x0c'
  | 'r' => some '\r'
  | '"' => some '"'
  | '\\' => some '\\'
  | _ => none

/-- The body of a quoted string with its escapes resolved, and the text after its quote. -/
def basicString : List Char → Option (List Char × List Char)
  | [] => none
  | '"' :: cs => some ([], cs)
  | '\\' :: 'u' :: a :: b :: c :: d :: cs => do
    let x ← codePoint [a, b, c, d]
    let (s, rest) ← basicString cs
    return (x :: s, rest)
  | '\\' :: 'U' :: a :: b :: c :: d :: e :: f :: g :: h :: cs => do
    let x ← codePoint [a, b, c, d, e, f, g, h]
    let (s, rest) ← basicString cs
    return (x :: s, rest)
  | '\\' :: c :: cs => do
    let x ← escape c
    let (s, rest) ← basicString cs
    return (x :: s, rest)
  | c :: cs => do
    let (s, rest) ← basicString cs
    return (c :: s, rest)

/-- Digits of a base with single underscores between them. -/
def digits (base : Nat) (cs : List Char) : Option Nat :=
  let groups := Text.fields '_' cs
  if groups.any (· = []) then none else number base groups.flatten

/-- Decimal digits without a zero in front. -/
def decimal (cs : List Char) : Option Nat :=
  if cs.head? = some '0' && cs.length > 1 then none else digits 10 cs

/-- Integers have 64 bits. -/
def integer (cs : List Char) : Option Int := do
  let n : Int ←
    match cs with
    | '0' :: 'x' :: cs => (digits 16 cs).map Int.ofNat
    | '0' :: 'o' :: cs => (digits 8 cs).map Int.ofNat
    | '0' :: 'b' :: cs => (digits 2 cs).map Int.ofNat
    | '+' :: cs => (decimal cs).map Int.ofNat
    | '-' :: cs => (decimal cs).map fun n => -Int.ofNat n
    | cs => (decimal cs).map Int.ofNat
  if -9223372036854775808 ≤ n && n ≤ 9223372036854775807 then some n else none

def setting (cs : List Char) : Option Setting :=
  match cs with
  | '"' :: cs => do
    let (s, rest) ← basicString cs
    if endsHere rest then some (.text (.ofList s)) else none
  | '\'' :: cs =>
    match cs.dropWhile (· != '\'') with
    | _ :: rest =>
      if endsHere rest then some (.text (.ofList (cs.takeWhile (· != '\'')))) else none
    | [] => none
  | cs =>
    let word := cs.takeWhile fun c => !isSpace c && c != '#'
    if !endsHere (cs.drop word.length) then none
    else if word = "true".toList then some (.bool true)
    else if word = "false".toList then some (.bool false)
    else (integer word).map .integer

def tableName (cs : List Char) : Option String := do
  let (name, rest) ← bareKey (skipSpace cs)
  match skipSpace rest with
  | ']' :: rest => if endsHere rest then some name else none
  | _ => none

/-- What a line says. Control characters other than tabs say nothing. -/
def Line.ofChars (cs : List Char) : Option Line :=
  if cs.any fun c => (c.toNat < 32 && c != '\t') || c.toNat == 127 then none
  else if endsHere cs then some .blank
  else
    match skipSpace cs with
    | '[' :: cs => (tableName cs).map .table
    | cs => do
      let (key, rest) ← bareKey cs
      match skipSpace rest with
      | '=' :: rest => (setting (skipSpace rest)).map (.assignment key)
      | _ => none

def natural (key : String) : Setting → Except Fault Nat
  | .integer (.ofNat n) => .ok n
  | _ => .error (.wrongType key)

def boolean (key : String) : Setting → Except Fault Bool
  | .bool b => .ok b
  | _ => .error (.wrongType key)

def string (key : String) : Setting → Except Fault String
  | .text s => .ok s
  | _ => .error (.wrongType key)

def setOption (o : Options) (key : String) (v : Setting) : Except Fault Options :=
  match key with
  | "max_expansion_steps" => return { o with maxExpansionSteps := ← natural key v }
  | "max_reported_causes" => return { o with maxReportedCauses := ← natural key v }
  | "max_cause_length" => return { o with maxCauseLength := ← natural key v }
  | "strict_warnings" => return { o with strictWarnings := ← boolean key v }
  | _ => .error (.unknownKey "compiler" key)

def setGeneration (o : GenerationOptions) (key : String) (v : Setting) :
    Except Fault GenerationOptions :=
  match key with
  | "tag_open" => return { o with tagOpen := ← string key v }
  | "tag_close" => return { o with tagClose := ← string key v }
  | "keep_unused_tags" => return { o with keepUnusedTags := ← boolean key v }
  | _ => .error (.unknownKey "codegen" key)

/-- The settings read so far, and what was given. -/
structure Progress where
  config : Config := {}
  /-- The newest table is open and comes first. -/
  tables : List String := []
  keys : List (String × String) := []

namespace Progress

def table (p : Progress) (name : String) : Except Fault Progress :=
  if name ≠ "compiler" && name ≠ "codegen" then .error (.unknownTable name)
  else if p.tables.contains name then .error (.repeatedTable name)
  else .ok { p with tables := name :: p.tables }

def assign (p : Progress) (key : String) (v : Setting) : Except Fault Progress :=
  match p.tables with
  | [] => .error (.noTable key)
  | table :: _ =>
    if p.keys.contains (table, key) then .error (.repeatedKey table key)
    else do
      let config ←
        if table = "compiler" then
          pure { p.config with options := ← setOption p.config.options key v }
        else pure { p.config with generation := ← setGeneration p.config.generation key v }
      return { p with config, keys := (table, key) :: p.keys }

def line (p : Progress) (cs : List Char) (number : Nat) : Except Fault Progress :=
  match Line.ofChars cs with
  | none => .error (.malformed number)
  | some .blank => .ok p
  | some (.table name) => p.table name
  | some (.assignment key v) => p.assign key v

end Progress

/-- A byte order mark in front says nothing. -/
def dropMark : List Char → List Char
  | '\ufeff' :: cs => cs
  | cs => cs

def ofText (text : String) : Except Fault Config := do
  let lines := (Text.lines (dropMark text.toList)).zipIdx
  let p ← lines.foldlM (fun (p : Progress) (cs, i) => p.line cs (i + 1)) {}
  return p.config

end Config

end ConceptScript
