import ConceptScript.Diagnostic
import ConceptScript.Path

namespace ConceptScript

/-- Where scripts come from. A path has a canonical name, and two paths with one name are one
script. Failures are told in words. -/
structure Provider (m : Type → Type) where
  canonicalize : String → m (Except String String)
  read : String → m (Except String String)

namespace Provider

variable {m : Type → Type} [Monad m]

/-- Loads the scripts at the paths, each script once. The canonical names of those loaded before
are at hand. -/
def load (provider : Provider m) (seen : List String) : List String → ExceptT Diagnostic m (List Script)
  | [] => pure []
  | path :: paths => do
    match ← provider.canonicalize path with
    | .error reason => throw {
        code := .unreadableScript
        message := s!"cannot open script '{path}': {reason}" }
    | .ok name =>
      if seen.contains name then provider.load seen paths
      else
        match ← provider.read path with
        | .error reason => throw {
            code := .unreadableScript
            message := s!"cannot read script '{path}': {reason}" }
        | .ok text =>
          let rest ← provider.load (name :: seen) paths
          return .ofText path text :: rest

end Provider

/-- Scripts kept in memory under their normalized paths. -/
structure Store where
  /-- The newest comes first. -/
  files : List (Path × String) := []

namespace Store

inductive Fault where
  | noFile (path : Path)
  | noPath (path : Path)
  deriving Repr, DecidableEq

def Fault.message : Fault → String
  | .noFile path => s!"file not found in memory: {path.display}"
  | .noPath path => s!"path not found in memory provider: {path.display}"

/-- Of several files at one path the last one counts. -/
def ofFiles (files : List (String × String)) : Store :=
  ⟨(files.map fun (path, text) => ((Path.ofText path).normalize, text)).reverse⟩

def find? (s : Store) (path : Path) : Option String :=
  (s.files.find? fun (p, _) => p == path).map Prod.snd

def read (s : Store) (path : String) : Except Fault String :=
  let p := (Path.ofText path).normalize
  match s.find? p with
  | some text => .ok text
  | none => .error (.noFile p)

def canonicalize (s : Store) (path : String) : Except Fault Path :=
  let p := (Path.ofText path).normalize
  if (s.find? p).isSome then .ok p else .error (.noPath p)

def provider (s : Store) : Provider Id where
  canonicalize path := ((s.canonicalize path).map Path.display).mapError Fault.message
  read path := (s.read path).mapError Fault.message

/-- The scripts at some paths of the store. -/
def load (s : Store) (paths : List String) : Except Diagnostic (List Script) :=
  (s.provider.load [] paths).run

end Store

end ConceptScript
