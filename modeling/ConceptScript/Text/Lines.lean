import ConceptScript.Text.Fields

namespace ConceptScript.Text

/-- A line without the carriage return before its line feed. -/
def dropReturn (cs : List Char) : List Char :=
  if cs.getLast? = some '\r' then cs.dropLast else cs

/-- The lines of a text; a final line feed opens no line. -/
def lines (cs : List Char) : List (List Char) :=
  let all := fields '\n' cs
  all.dropLast.map dropReturn ++ (all.getLast?.toList.filter (· ≠ []))

end ConceptScript.Text
