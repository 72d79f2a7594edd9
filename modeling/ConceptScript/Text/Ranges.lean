namespace ConceptScript.Text

/-- A set of characters, as closed ranges of code points. -/
abbrev Ranges := List (Nat × Nat)

def Ranges.contains (r : Ranges) (c : Char) : Bool :=
  r.any fun (low, high) => low ≤ c.toNat && c.toNat ≤ high

end ConceptScript.Text
