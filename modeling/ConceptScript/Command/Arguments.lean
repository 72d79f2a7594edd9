namespace ConceptScript.Command

inductive Format where
  | text
  | json
  deriving Repr, DecidableEq, Inhabited

inductive Verb where
  | parse
  | check
  | generate
  deriving Repr, DecidableEq, Inhabited

/-- What the program is asked to do. -/
structure Invocation where
  verb : Verb
  files : List String
  format : Format := .text
  quiet : Bool := false
  strict : Bool := false
  config? : Option String := none
  out? : Option String := none
  deriving Repr, DecidableEq, Inhabited

/-- Why there is nothing to run. -/
inductive Stop where
  | usage
  | help
  | version
  deriving Repr, DecidableEq

/-- The options given before the verb, or after it. -/
structure Given where
  format? : Option Format := none
  config? : Option String := none
  logLevel? : Option String := none
  out? : Option String := none
  quiet : Bool := false
  strict : Bool := false

/-- What a word on the command line is by its looks. -/
inductive Word where
  | separator
  | long (name : String) (value? : Option String)
  | short (letter : Char)
  | plain (text : String)

def Word.ofText (text : String) : Word :=
  match text.toList with
  | ['-', '-'] => .separator
  | '-' :: '-' :: cs =>
    let name := cs.takeWhile (· != '=')
    match cs.dropWhile (· != '=') with
    | [] => .long (.ofList name) none
    | _ :: value => .long (.ofList name) (some (.ofList value))
  | '-' :: c :: _ => .short c
  | _ => .plain text

def Verb.ofName? : String → Option Verb
  | "parse" => some .parse
  | "check" => some .check
  | "generate" => some .generate
  | _ => none

def takesValue (verb? : Option Verb) (name : String) : Bool :=
  name == "output" || name == "config" || name == "log-level" ||
    (name == "out" && verb? == some .generate)

namespace Given

/-- Records an option that stands alone; each is given once. -/
def flag (g : Given) (verb? : Option Verb) : String → Except Stop Given
  | "quiet" => if g.quiet then .error .usage else .ok { g with quiet := true }
  | "strict" => if g.strict then .error .usage else .ok { g with strict := true }
  | "help" => .error .help
  | "version" => .error (if verb?.isNone then .version else .usage)
  | _ => .error .usage

def nonempty (value : String) (old : Option String) : Except Stop (Option String) :=
  if value = "" || old.isSome then .error .usage else .ok (some value)

/-- Records an option with its value; each is given once, and a path is not empty. -/
def value (g : Given) (name value : String) : Except Stop Given :=
  match name with
  | "output" =>
    match g.format?, value with
    | none, "text" => .ok { g with format? := some .text }
    | none, "json" => .ok { g with format? := some .json }
    | _, _ => .error .usage
  | "config" => return { g with config? := ← nonempty value g.config? }
  | "out" => return { g with out? := ← nonempty value g.out? }
  | "log-level" =>
    if g.logLevel?.isSome then .error .usage else .ok { g with logLevel? := some value }
  | _ => .error .usage

/-- A letter after a single dash. -/
def letter (verb? : Option Verb) : Char → Stop
  | 'h' => .help
  | 'V' => if verb?.isNone then .version else .usage
  | _ => .usage

end Given

/-- The command line read so far. -/
structure Progress where
  verb? : Option Verb := none
  /-- The options before the verb. -/
  outer : Given := {}
  /-- The options at the place that is read. -/
  given : Given := {}
  /-- Whether help is asked for, and on what. -/
  help? : Option (Option String) := none
  /-- An option whose value is the next word. -/
  pending? : Option String := none
  /-- Whether a separator has turned all that follows into files. -/
  separated : Bool := false
  files : List String := []

namespace Progress

def addFile (p : Progress) (text : String) : Except Stop Progress :=
  if text = "" then .error .usage else .ok { p with files := p.files ++ [text] }

/-- There is help on the verbs and on help itself, one at a time. -/
def topic (p : Progress) (text : String) : Option String → Except Stop Progress
  | none =>
    if text = "help" || (Verb.ofName? text).isSome then .ok { p with help? := some (some text) }
    else .error .usage
  | some _ => .error .usage

/-- A word that is not an option: the verb, then files. -/
def plain (p : Progress) (text : String) : Except Stop Progress :=
  match p.verb?, Verb.ofName? text with
  | some _, _ => p.addFile text
  | none, some verb => .ok { p with verb? := some verb, outer := p.given, given := {} }
  | none, none => if text = "help" then .ok { p with help? := some none } else .error .usage

def long (p : Progress) (name : String) : Option String → Except Stop Progress
  | some value =>
    if takesValue p.verb? name then return { p with given := ← p.given.value name value }
    else .error .usage
  | none =>
    if takesValue p.verb? name then .ok { p with pending? := some name }
    else return { p with given := ← p.given.flag p.verb? name }

/-- Reads a word by its looks. A value that looks like an option is none. -/
def word (p : Progress) (text : String) : Except Stop Progress :=
  match p.pending?, Word.ofText text with
  | some name, .plain value =>
    return { p with pending? := none, given := ← p.given.value name value }
  | some _, _ => .error .usage
  | none, .plain text => p.plain text
  | none, .long name value? => p.long name value?
  | none, .short letter => .error (Given.letter p.verb? letter)
  | none, .separator => if p.verb?.isNone then .error .usage else .ok { p with separated := true }

/-- Reads the next word. After a separator all words are files, and after help all are topics. -/
def next (p : Progress) (text : String) : Except Stop Progress :=
  match p.help? with
  | some topic? => p.topic text topic?
  | none => if p.separated then p.addFile text else p.word text

/-- The options after the verb win over those before it. -/
def finish (p : Progress) : Except Stop Invocation :=
  if p.help?.isSome then .error .help
  else
    match p.verb?, p.pending?, p.files with
    | some verb, none, file :: files => .ok {
        verb
        files := file :: files
        format := (p.given.format? <|> p.outer.format?).getD .text
        quiet := p.outer.quiet || p.given.quiet
        strict := p.outer.strict || p.given.strict
        config? := p.given.config? <|> p.outer.config?
        out? := p.given.out? }
    | _, _, _ => .error .usage

end Progress

def Invocation.ofArguments (arguments : List String) : Except Stop Invocation := do
  (← arguments.foldlM Progress.next {}).finish

end ConceptScript.Command
