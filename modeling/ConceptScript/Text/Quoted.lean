import ConceptScript.Text.Hidden

namespace ConceptScript.Text

/-- The code point in lower-case hexadecimal between braces. -/
def escapedCodePoint (c : Char) : String :=
  "\\u\x7b" ++ String.ofList (Nat.toDigits 16 c.toNat) ++ "\x7d"

/-- How a character is shown inside the given quote mark. -/
def escaped (quote c : Char) : String :=
  if c = '\x00' then "\\0"
  else if c = '\t' then "\\t"
  else if c = '\r' then "\\r"
  else if c = '\n' then "\\n"
  else if c = quote || c = '\\' then String.ofList ['\\', c]
  else if isHidden c then escapedCodePoint c
  else c.toString

def quotedCharacter (c : Char) : String := "'" ++ escaped '\'' c ++ "'"

def quoted (s : String) : String :=
  "\"" ++ String.join (s.toList.map (escaped '"')) ++ "\""

end ConceptScript.Text
