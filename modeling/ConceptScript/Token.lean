import ConceptScript.Script

namespace ConceptScript

inductive Token where
  | word (text : String)
  /-- Adjacent words joined by dots. -/
  | path (segments : List String)
  /-- A string literal, without its quotes and with its escapes resolved. -/
  | quoted (text : String)
  | openBrace
  | closeBrace
  | openBracket
  | closeBracket
  | semicolon
  | endOfScript
  deriving Repr, DecidableEq, Inhabited

def Token.display : Token → String
  | .word w => s!"'{w}'"
  | .path segments => "'" ++ ".".intercalate segments ++ "'"
  | .quoted s => s!"string \"{s}\""
  | .openBrace => "'\x7b'"
  | .closeBrace => "'\x7d'"
  | .openBracket => "'['"
  | .closeBracket => "']'"
  | .semicolon => "';'"
  | .endOfScript => "end of script"

/-- A token and where it stands. -/
structure Lexeme where
  token : Token
  span : Span
  deriving Repr, DecidableEq, Inhabited

end ConceptScript
