namespace ConceptScript.Text

/-- A text, last character first, without the copies of an ending at its front. -/
def dropCopies (ending : List Char) (h : ending ≠ []) (reversed : List Char) : List Char :=
  if _hp : ending <+: reversed then dropCopies ending h (reversed.drop ending.length) else reversed
termination_by reversed.length
decreasing_by
  have := List.length_pos_iff.2 h
  have := _hp.length_le
  simp only [List.length_drop]
  omega

/-- A text without an ending, taken off as often as it is there. -/
def trimEnding (text ending : String) : String :=
  if h : ending.toList.reverse ≠ [] then
    .ofList (dropCopies ending.toList.reverse h text.toList.reverse).reverse
  else text

end ConceptScript.Text
