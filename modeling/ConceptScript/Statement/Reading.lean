import ConceptScript.Statement.Placeholder
import ConceptScript.Text.Letter

namespace ConceptScript

/-- Why a concept type gives no reading of a statement. -/
inductive Failure where
  /-- The statement starts with another keyword. -/
  | silent
  | mismatch (reason : Mismatch)
  /-- A malformed list, whatever the other types make of the statement. -/
  | fatal (d : Diagnostic)

/-- A statement as one concept type reads it. -/
structure Reading where
  node : Node
  /-- How many tokens it takes up. -/
  consumed : Nat
  notes : List String

/-- An attempt may look list texts up, and remembers them when it fails too. -/
abbrev Attempt := ExceptT Failure (StateM PropertyList.Cache)

/-- The tokens still to read, and the parts of a dotted path that are not bound yet. -/
structure Cursor where
  tokens : List Lexeme
  pending : List String

namespace Cursor

def peek (c : Cursor) : Token :=
  match c.tokens with
  | [] => .endOfScript
  | l :: _ => l.token

def advance (c : Cursor) : Cursor := { c with tokens := c.tokens.tail }

end Cursor

/-- What an attempt has at hand: the language, the script and the type to read for. -/
structure Reader where
  registry : Registry
  script : Script
  type : ConceptType

namespace Reader

def mismatch {α : Type} (reason : Mismatch) : Attempt α := throw (.mismatch reason)

def expected {α : Type} (r : Reader) (m : Member) (what : String) (found : Token) : Attempt α :=
  mismatch (.expected m.name r.type.name what found)

def lift {α : Type} : Except Mismatch α → Attempt α
  | .ok a => pure a
  | .error reason => mismatch reason

/-- The type that a written reference names. -/
def referenced (r : Reader) (m : Member) (target : Target) : Attempt (ConceptType × Nat) :=
  match target with
  | .any => mismatch (.onlyNesting m.name r.type.name target)
  | .concept name =>
    match r.registry.find? name with
    | none => mismatch (.unknownType name)
    | some t =>
      match t.arity? with
      | some (n + 1) =>
        if t.isInterface then mismatch (.onlyNesting m.name r.type.name target)
        else pure (t, n + 1)
      | _ => mismatch (.onlyNesting m.name r.type.name target)

/-- The parts of a written reference. A literal is one part, and stands where one is enough. -/
def referenceParts (r : Reader) (m : Member) (t : ConceptType) (arity : Nat) :
    Token → Attempt (List String)
  | .word w => pure [w]
  | .path segments => pure segments
  | .quoted s =>
    if arity = 1 then pure [s] else r.expected m s!"a reference to {t.name}" (.quoted s)
  | found => r.expected m s!"a reference to {t.name}" found

/-- A written reference. A path that is longer than the parent needs goes on with the members
after it. -/
def reference (r : Reader) (m : Member) (target : Target) (c : Cursor) :
    Attempt (Value × Cursor) := do
  let (t, arity) ← r.referenced m target
  let written ← r.referenceParts m t arity c.peek
  let (parts, pending) :=
    if m.isParent then (written.take arity, written.drop arity) else (written, [])
  if parts.length ≠ arity then
    mismatch (.partCount m.name r.type.name parts t.name arity)
  let node ← lift (r.registry.placeholder t parts)
  return (.reference node, { c.advance with pending := c.pending ++ pending })

def fatal {α : Type} (r : Reader) (span : Span) (fault : ListFault) : Attempt α :=
  throw (.fatal {
    code := .invalidPropertyList
    message := s!"invalid property list for '{r.type.name}': {fault.message}"
    location := r.script.locate span })

/-- The names of a bracketed list up to its closing bracket. -/
def bracketed (r : Reader) : List Lexeme → Attempt (List String × List Lexeme)
  | [] => r.fatal ⟨0, 0⟩ (.notAName .endOfScript)
  | ⟨token, span⟩ :: rest =>
    match token with
    | .closeBracket => pure ([], rest)
    | .word w => do
      let (names, rest) ← r.bracketed rest
      return (w :: names, rest)
    | .path segments => r.fatal span (.split (.dotted (".".intercalate segments)))
    | found => r.fatal span (.notAName found)

/-- The names of a list, written in one literal or between brackets. -/
def listNames (r : Reader) (m : Member) (c : Cursor) : Attempt (List String × Span × Cursor) :=
  match c.tokens with
  | ⟨.quoted s, span⟩ :: rest => do
    match ← modifyGet fun cache => cache.split s with
    | .ok names => return (names, span, { c with tokens := rest })
    | .error f => r.fatal span (.split f)
  | ⟨.openBracket, span⟩ :: rest => do
    let (names, rest) ← r.bracketed rest
    if names.isEmpty then r.fatal span (.split .empty)
    return (names, span, { c with tokens := rest })
  | _ => r.expected m "a property list" c.peek

def elements (r : Reader) (target : ConceptType) (listing : Node) (span : Span) :
    List String → Attempt (List Node)
  | [] => pure []
  | name :: names =>
    match r.registry.listElement target name listing with
    | .error reason => r.fatal span (.element reason)
    | .ok node => do
      let nodes ← r.elements target listing span names
      return node :: nodes

def list (r : Reader) (m : Member) (target : Target) (node : Node) (c : Cursor) :
    Attempt (Value × Cursor) := do
  let (names, span, c) ← r.listNames m c
  match target with
  | .any => mismatch (.openList m.name r.type.name)
  | .concept name =>
    match r.registry.find? name with
    | none => mismatch (.unknownType name)
    | some t => return (.list (← r.elements t node span names), c)

/-- The value of a member from the tokens. -/
def written (r : Reader) (m : Member) (node : Node) (c : Cursor) : Attempt (Value × Cursor) :=
  match m.kind with
  | .identifier =>
    match c.peek with
    | .word w => pure (.text w, c.advance)
    | .quoted s =>
      if Text.isIdentifier s then pure (.text s, c.advance)
      else r.expected m "an identifier" (.quoted s)
    | found => r.expected m "an identifier" found
  | .text =>
    match c.peek with
    | .word w => pure (.text w, c.advance)
    | .quoted s => pure (.text s, c.advance)
    | found => r.expected m "a value" found
  | .reference target => r.reference m target c
  | .list target => r.list m target node c

/-- The value of a member from the rest of a dotted path. -/
def fromPath (r : Reader) (m : Member) (c : Cursor) : Attempt (Value × Cursor) :=
  match m.kind with
  | .reference target => do
    let (t, arity) ← r.referenced m target
    if c.pending.length < arity then
      mismatch (.partsMissing m.name r.type.name arity)
    let node ← lift (r.registry.placeholder t (c.pending.take arity))
    return (.reference node, { c with pending := c.pending.drop arity })
  | .list _ => mismatch (.listInPath m.name r.type.name)
  | _ =>
    match c.pending with
    | [] => mismatch .pathEnded
    | part :: pending => pure (.text part, { c with pending })

def bind (r : Reader) (node : Node) (c : Cursor) : List (Member × Nat) → Attempt (Node × Cursor)
  | [] => pure (node, c)
  | (m, index) :: rest => do
    let (value, c) ← if c.pending.isEmpty then r.written m node c else r.fromPath m c
    let node ← lift ((node.setAt index m value).mapError .misfit)
    r.bind node c rest

/-- Binds the parent member to the concept around the statement. -/
def nest (r : Reader) (node context : Node) : Attempt Node :=
  match r.type.parent? with
  | none => mismatch (.noParent r.type.name context.describe)
  | some parent =>
    match parent.kind with
    | .reference target =>
      if context.type.satisfies target then
        lift ((node.setAt 0 parent (.referenceTo context)).mapError .misfit)
      else mismatch (.wrongParent r.type.name context.describe parent.name target)
    | _ => mismatch (.parentNotReference parent.name r.type.name)

def notes (r : Reader) : List String :=
  match r.type.deprecation? with
  | none => []
  | some note =>
    let keyword := r.type.keyword?.getD ""
    [s!"keyword '{keyword}' ({r.type.name}) is deprecated: {note}"]

/-- Reads a statement at the front of the tokens, inside a context or at top level. -/
def read (r : Reader) (context : Option Node) (tokens : List Lexeme) : Attempt Reading := do
  match tokens with
  | ⟨.word w, _⟩ :: rest =>
    if r.type.keyword? ≠ some w then throw .silent
    let fresh := Node.ofType r.type
    let (node, members) ←
      match context with
      | none => pure (fresh, r.type.members.zipIdx)
      | some outer => pure (← r.nest fresh outer, r.type.members.zipIdx.tail)
    let (node, c) ← r.bind node ⟨rest, []⟩ members
    if !c.pending.isEmpty then mismatch (.trailing r.type.name c.pending)
    return { node, consumed := tokens.length - c.tokens.length, notes := r.notes }
  | _ => throw .silent

end Reader

end ConceptScript
