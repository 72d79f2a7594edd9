import ConceptScript.Options
import ConceptScript.Statement.Choice
import ConceptScript.Token.Lexer

namespace ConceptScript

/-- A concept and where its statement stands. -/
structure ParsedConcept where
  node : Node
  location : Location

/-- What scripts say: their concepts in order, each before those nested in it. -/
structure Parsed where
  concepts : List ParsedConcept := []
  warnings : List Warning := []

instance : Append Parsed :=
  ⟨fun a b => ⟨a.concepts ++ b.concepts, a.warnings ++ b.warnings⟩⟩

abbrev Parsing := ExceptT Diagnostic (StateM PropertyList.Cache)

/-- The first causes, cut to a length, and how many are left out. -/
def Options.condense (o : Options) (causes : List String) : String :=
  let shown := (causes.take o.maxReportedCauses).map fun cause =>
    if cause.length > o.maxCauseLength then
      String.ofList (cause.toList.take o.maxCauseLength) ++ "..."
    else cause
  let more :=
    if causes.length > o.maxReportedCauses then
      [s!"... and {causes.length - o.maxReportedCauses} more"]
    else []
  "\n".intercalate (shown ++ more)

/-- What the statements of a script are read with. -/
structure Statements where
  registry : Registry
  options : Options
  script : Script

namespace Statements

/-- The readings of a statement, and the reasons of the types that have none. -/
def readings (s : Statements) (context : Option Node) (tokens : List Lexeme) :
    List ConceptType → Parsing (List Reading × List Mismatch)
  | [] => pure ([], [])
  | t :: ts => do
    let attempt := Reader.read ⟨s.registry, s.script, t⟩ context tokens
    match ← ExceptT.lift attempt.run with
    | .ok reading =>
      let (readings, reasons) ← s.readings context tokens ts
      return (reading :: readings, reasons)
    | .error .silent => s.readings context tokens ts
    | .error (.mismatch reason) =>
      let (readings, reasons) ← s.readings context tokens ts
      return (readings, reason :: reasons)
    | .error (.fatal d) => throw d

/-- Where the first tokens stand, from the head to the last of them. -/
def locate (s : Statements) (head : Lexeme) (tokens : List Lexeme) (count : Nat) : Location :=
  let last := tokens.getD (count - 1) head
  s.script.locate ⟨head.span.start, last.span.stop⟩

/-- The statement that starts with a keyword at the front of the tokens. -/
def statement (s : Statements) (context : Option Node) (keyword : String) (head : Lexeme)
    (tokens : List Lexeme) : Parsing (Reading × ParsedConcept × List Warning) := do
  let candidates := s.registry.withKeyword keyword
  if candidates.isEmpty then
    throw {
      code := .unrecognizedKeyword
      message := s!"unrecognized concept keyword '{keyword}'"
      location := s.script.locate head.span }
  let (readings, reasons) ← s.readings context tokens candidates
  let causes := reasons.map Mismatch.message
  if readings.isEmpty then
    throw {
      code := .invalidSyntax
      message := s!"invalid syntax for '{keyword}'"
      location := s.script.locate head.span
      causes := s.options.condense causes
      details := causes }
  let most := (readings.map Reading.consumed).max?.getD 1
  let (chosen, warning) ← choose readings keyword (s.locate head tokens most)
  let location := s.locate head tokens chosen.consumed
  let notes := chosen.notes.map fun note => (⟨note, location⟩ : Warning)
  return (chosen, ⟨chosen.node, location⟩, notes ++ warning.toList)

/-- The end of a script closes nothing that is open. -/
def finish (s : Statements) : List ParsedConcept → Parsing Parsed
  | [] => pure {}
  | innermost :: _ =>
    throw {
      code := .unclosedConcept
      message := s!"'{innermost.node.describe}' is not closed: expected '\x7d' before the end of {s.script.name}"
      location := innermost.location
      causes := "every '\x7b' must be matched by a '\x7d' in the same script" }

/-- The statements of the tokens, inside the concepts that are open, the innermost first. -/
def sequence (s : Statements) (enclosing : List ParsedConcept) (tokens : List Lexeme) :
    Parsing Parsed :=
  match tokens with
  | [] => s.finish enclosing
  | head :: rest =>
    match head.token with
    | .endOfScript => s.finish enclosing
    | .closeBrace =>
      match enclosing with
      | [] =>
        throw {
          code := .unexpectedClosingBrace
          message := "unexpected '\x7d': no concept is open"
          location := s.script.locate head.span }
      | _ :: outer => s.sequence outer rest
    | .word keyword => do
      let context := enclosing.head?.map ParsedConcept.node
      let (reading, parsed, warnings) ← s.statement context keyword head (head :: rest)
      match _h : (head :: rest).drop reading.consumed with
      | ⟨.openBrace, _⟩ :: inside =>
        return ⟨[parsed], warnings⟩ ++ (← s.sequence (parsed :: enclosing) inside)
      | ⟨.semicolon, _⟩ :: after =>
        return ⟨[parsed], warnings⟩ ++ (← s.sequence enclosing after)
      | remaining =>
        let found := remaining.headD ⟨.endOfScript, head.span⟩
        throw {
          code := .missingTerminator
          message := s!"expected ';' or '\x7b' after '{parsed.node.describe}', found {found.token.display}"
          location := s.script.locate found.span }
    | found =>
      throw {
        code := .expectedKeyword
        message := s!"expected a concept keyword, found {found.display}"
        location := s.script.locate head.span }
termination_by tokens.length
decreasing_by
  · simp
  all_goals
    have := congrArg List.length _h
    simp only [List.length_drop, List.length_cons] at this ⊢
    omega

end Statements

def Script.parse (script : Script) (registry : Registry) (options : Options) : Parsing Parsed := do
  let tokens ← ExceptT.mk (pure script.lex)
  Statements.sequence ⟨registry, options, script⟩ [] tokens

/-- Scripts one after the other; nesting stays within a script. -/
def parseScripts (registry : Registry) (options : Options) : List Script → Parsing Parsed
  | [] => pure {}
  | script :: scripts => do
    let first ← script.parse registry options
    return first ++ (← parseScripts registry options scripts)

end ConceptScript
