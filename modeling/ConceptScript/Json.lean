namespace ConceptScript

/-- Structured output. -/
inductive Json where
  | null
  | bool (b : Bool)
  | number (n : Nat)
  | string (s : String)
  | array (items : List Json)
  | object (fields : List (String × Json))
  deriving Inhabited

namespace Json

def ofOption {α : Type} (f : α → Json) : Option α → Json
  | none => null
  | some a => f a

def hexDigits (n : Nat) : String :=
  let digits := Nat.toDigits 16 n
  String.ofList (List.replicate (4 - digits.length) '0' ++ digits)

def escaped (c : Char) : String :=
  if c = '"' then "\\\""
  else if c = '\\' then "\\\\"
  else if c = '\n' then "\\n"
  else if c = '\r' then "\\r"
  else if c = '\t' then "\\t"
  else if c = '\x08' then "\\b"
  else if c = '\x0c' then "\\f"
  else if c.toNat < 32 then "\\u" ++ hexDigits c.toNat
  else c.toString

def quoted (s : String) : String := "\"" ++ String.join (s.toList.map escaped) ++ "\""

/-- Fields in the order of their names. -/
def sortFields {α : Type} (fields : List (String × α)) : List (String × α) :=
  fields.mergeSort fun a b => decide (a.1 ≤ b.1)

mutual

/-- On one line, without blanks. -/
def compact : Json → String
  | null => "null"
  | bool b => if b then "true" else "false"
  | number n => toString n
  | string s => quoted s
  | array items => "[" ++ ",".intercalate (compactItems items) ++ "]"
  | object fields =>
    let texts := sortFields (compactFields fields)
    "\x7b" ++ ",".intercalate (texts.map fun (name, text) => quoted name ++ ":" ++ text) ++ "\x7d"

def compactItems : List Json → List String
  | [] => []
  | item :: items => compact item :: compactItems items

def compactFields : List (String × Json) → List (String × String)
  | [] => []
  | (name, value) :: fields => (name, compact value) :: compactFields fields

end

def lineBreak (depth : Nat) : String := "\n" ++ String.ofList (List.replicate (2 * depth) ' ')

/-- Items between brackets, each on a line of its own. -/
def block (opening closing : String) (depth : Nat) : List String → String
  | [] => opening ++ closing
  | items =>
    opening ++ lineBreak (depth + 1) ++ ("," ++ lineBreak (depth + 1)).intercalate items ++
      lineBreak depth ++ closing

mutual

/-- Over several lines, with two blanks for each level. -/
def pretty (depth : Nat) : Json → String
  | null => "null"
  | bool b => if b then "true" else "false"
  | number n => toString n
  | string s => quoted s
  | array items => block "[" "]" depth (prettyItems (depth + 1) items)
  | object fields =>
    let texts := sortFields (prettyFields (depth + 1) fields)
    block "\x7b" "\x7d" depth (texts.map fun (name, text) => quoted name ++ ": " ++ text)

def prettyItems (depth : Nat) : List Json → List String
  | [] => []
  | item :: items => pretty depth item :: prettyItems depth items

def prettyFields (depth : Nat) : List (String × Json) → List (String × String)
  | [] => []
  | (name, value) :: fields => (name, pretty depth value) :: prettyFields depth fields

end

end Json

end ConceptScript
