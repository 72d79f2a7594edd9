namespace ConceptScript

/-- The settings of a compilation. -/
structure Options where
  /-- How many concepts an expansion may take up before it counts as endless. -/
  maxExpansionSteps : Nat := 200000
  /-- How many causes a message lists. -/
  maxReportedCauses : Nat := 5
  /-- How many characters of a cause a message shows. -/
  maxCauseLength : Nat := 300
  strictWarnings : Bool := false
  deriving Repr, DecidableEq, Inhabited

end ConceptScript
