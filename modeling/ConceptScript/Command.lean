import ConceptScript.Command.Arguments
import ConceptScript.Config
import ConceptScript.Files
import ConceptScript.Model.Serialize
import ConceptScript.Sample.Outline
import ConceptScript.Sample.Rules

namespace ConceptScript.Command

/-- What a run prints, and its exit code. -/
structure Result where
  exit : Nat := 0
  output : String := ""
  errors : String := ""
  deriving Repr, DecidableEq, Inhabited

/-- The settings file that is read if it is there and no other one is named. -/
def defaultConfig : String := "conceptc.toml"

def versionText : String := "conceptc 0.1.0\n"

def usageText : String :=
  "Usage: conceptc [--output text|json] [--quiet] [--strict] [--config FILE] [--log-level FILTER] " ++
    "(parse FILES | check FILES | generate FILES [--out DIRECTORY])\n"

def positionJson (p : Position) : Json :=
  .object [("line", .number p.line), ("column", .number p.column)]

def locationJson (l : Location) : Json :=
  .object [
    ("file", .string l.file),
    ("begin", positionJson l.start),
    ("end", positionJson l.stop)]

def diagnosticJson (d : Diagnostic) : Json :=
  .object [
    ("code", .string d.code.label),
    ("message", .string d.message),
    ("possible_causes", .ofOption .string d.causes),
    ("span", .ofOption locationJson d.location),
    ("details", .array (d.details.map .string))]

/-- A warning without a location has no span at all. -/
def warningJson (w : Warning) : Json :=
  .object (("message", .string w.message) ::
    w.location.toList.map fun l => ("span", locationJson l))

def line (text : String) : String := text ++ "\n"

def diagnosticText (d : Diagnostic) : String :=
  let place := match d.location with
    | some l => s!"{l.display}: "
    | none => ""
  let causes := (Text.lines (d.causes.getD "").toList).map fun cs => "  " ++ String.ofList cs
  String.join ((s!"{place}error[{d.code.label}]: {d.message}" :: causes).map line)

/-- Failures of a job are told in structured form whether the run is quiet or not. -/
def diagnosticReport (i : Invocation) (d : Diagnostic) : String :=
  match i.format with
  | .json => line ((diagnosticJson d).pretty 0)
  | .text => if i.quiet then "" else diagnosticText d

def errorReport (i : Invocation) (message : String) : String :=
  if i.quiet then ""
  else
    match i.format with
    | .json => line (Json.object [("error", .string message)]).compact
    | .text => line message

def warningReport (i : Invocation) (warnings : List Warning) : String :=
  if i.quiet then "" else String.join (warnings.map fun w => line w.display)

def failure (errors : String) : Result := { exit := 1, errors }

section

variable {m : Type → Type} [Monad m]

def readConfig (fs : FileSystem m) (path : String) : m (Except String Config) := do
  match ← fs.read path with
  | .error e => return .error s!"could not read '{path}': {e.message}"
  | .ok text => return (Config.ofText text).mapError fun f => s!"could not parse '{path}': {f.message}"

def loadConfig (fs : FileSystem m) : Option String → m (Except String Config)
  | some path => readConfig fs path
  | none => do
    if ← fs.isFile defaultConfig then readConfig fs defaultConfig else return .ok {}

/-- Compiles scripts of the sample language. -/
def compileFiles (fs : FileSystem m) (options : Options) (files : List String) :
    ExceptT Diagnostic m Compilation := do
  let registry ← ExceptT.mk (pure Sample.registry)
  let compiler ← ExceptT.mk (pure (Sample.compiler registry options))
  let scripts ← fs.provider.load [] files
  ExceptT.mk (pure (compiler.compileFresh scripts))

def parse (i : Invocation) (c : Compilation) : Result :=
  let errors := warningReport i c.warnings
  match i.format with
  | .json => { output := line (c.model.toJson.pretty 0), errors }
  | .text =>
    match c.model.dependencyOrder with
    | .ok order => { output := String.join (order.map fun e => line e.key), errors }
    | .error d => failure (errors ++ diagnosticReport i d)

def check (i : Invocation) (c : Compilation) : Result :=
  match i.format with
  | .json =>
    let report := Json.object [
      ("status", .string "ok"),
      ("concepts", .number c.model.size),
      ("warnings", .array (c.warnings.map warningJson))]
    { output := line (report.pretty 0) }
  | .text =>
    let summary := s!"ok: {c.model.size} concepts, {c.warnings.length} warning(s)"
    { output := if i.quiet then "" else line summary, errors := warningReport i c.warnings }

/-- Writes artifacts into a directory and gives the paths of the files. -/
def writeArtifacts (fs : FileSystem m) (directory : String) :
    List (String × String) → ExceptT GenerationError m (List String)
  | [] => pure []
  | (name, content) :: rest => do
    let path := Path.join directory name
    let parent := Path.directoryOf path
    if let .error e ← fs.createDirectories (Path.outward parent) then
      throw (.file parent e.message)
    if let .error e ← fs.write path content then
      throw (.file path e.message)
    return path :: (← writeArtifacts fs directory rest)

def generationReport (i : Invocation) (e : GenerationError) : String :=
  errorReport i s!"error[{e.label}]: {e.message}"

def writtenReport (i : Invocation) (paths : List String) : String :=
  match i.format with
  | .json => line (Json.object [("written", .array (paths.map .string))]).compact
  | .text => if i.quiet then "" else String.join (paths.map fun p => line s!"wrote {p}")

def outlineReport (i : Invocation) (artifacts : List (String × String)) : String :=
  let text := (artifacts.lookup Sample.outline).getD ""
  match i.format with
  | .json => line (Json.object [("outline", .string text)]).compact
  | .text => text

def generate (fs : FileSystem m) (i : Invocation) (options : GenerationOptions) (c : Compilation) :
    m Result := do
  let errors := warningReport i c.warnings
  match ConceptScript.generate c.model Sample.generators options with
  | .error e => return failure (errors ++ generationReport i e)
  | .ok artifacts =>
    match i.out? with
    | none => return { output := outlineReport i artifacts, errors }
    | some directory =>
      match ← (writeArtifacts fs directory artifacts).run with
      | .ok paths => return { output := writtenReport i paths, errors }
      | .error e => return failure (errors ++ generationReport i e)

def perform (fs : FileSystem m) (i : Invocation) : m Result := do
  match ← loadConfig fs i.config? with
  | .error message => return failure (errorReport i message)
  | .ok config =>
    let options := { config.options with
      strictWarnings := config.options.strictWarnings || i.strict }
    match ← (compileFiles fs options i.files).run with
    | .error d => return failure (diagnosticReport i d)
    | .ok c =>
      match i.verb with
      | .parse => return parse i c
      | .check => return check i c
      | .generate => generate fs i config.generation c

/-- Runs the command line. -/
def run (fs : FileSystem m) (arguments : List String) : m Result :=
  match Invocation.ofArguments arguments with
  | .ok i => perform fs i
  | .error .usage => return { exit := 2, errors := usageText }
  | .error .help => return { output := usageText }
  | .error .version => return { output := versionText }

end

end ConceptScript.Command
