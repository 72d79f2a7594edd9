import ConceptScript.Statement.Reading

namespace ConceptScript

/-- The readings that take up the most tokens. -/
def longest (readings : List Reading) : List Reading :=
  let most := (readings.map Reading.consumed).max?.getD 0
  readings.filter fun r => r.consumed == most

/-- A reading that nests as little as any of the others. -/
def Reading.nestsLeast (readings : List Reading) (r : Reading) : Bool :=
  readings.all fun other => r.node.type.nesting.le other.node.type.nesting

/-- The one reading of a statement. The longest reading wins; of several, the one whose type
nests least, with a warning, because the others can be written by nesting. -/
def choose (readings : List Reading) (keyword : String) (location : Location) :
    Except Diagnostic (Reading × Option Warning) :=
  match longest readings with
  | [] => .error {
      code := .invalidSyntax
      message := "no interpretation to choose from"
      location }
  | [only] => .ok (only, none)
  | rivals =>
    let winners := rivals.filter (Reading.nestsLeast rivals)
    let losers := rivals.filter fun r => !Reading.nestsLeast rivals r
    let names := winners.map fun r => r.node.typeName
    match winners with
    | [winner] =>
      let others := ", ".intercalate (losers.map fun r => r.node.typeName)
      .ok (winner, some {
        message := s!"'{keyword}' interpreted as {winner.node.typeName} rather than {others}; the alternatives can be written by explicit nesting"
        location })
    | _ => .error {
        code := .ambiguousSyntax
        message := s!"ambiguous syntax for keyword '{keyword}': it matches " ++ ", ".intercalate names
        location
        causes := "several concept types parse this statement equally well; nest the statement inside its intended parent to select one"
        details := names }

end ConceptScript
