namespace ConceptScript.Text

/-- The parts of a text between the occurrences of a separator. -/
def fields (separator : Char) : List Char → List (List Char)
  | [] => [[]]
  | c :: cs =>
    if c = separator then [] :: fields separator cs
    else
      match fields separator cs with
      | [] => [[c]]
      | f :: fs => (c :: f) :: fs

end ConceptScript.Text
