import ConceptScript.Path
import ConceptScript.Sources

namespace ConceptScript

/-- Why the file system refuses. -/
inductive FileError where
  | notFound
  | alreadyExists
  | notADirectory
  | isADirectory
  | nameTooLong
  /-- The content is not UTF-8. -/
  | notText
  | other (reason : String)
  deriving Repr, DecidableEq, Inhabited

def FileError.message : FileError → String
  | notFound => "No such file or directory (os error 2)"
  | alreadyExists => "File exists (os error 17)"
  | notADirectory => "Not a directory (os error 20)"
  | isADirectory => "Is a directory (os error 21)"
  | nameTooLong => "File name too long (os error 36)"
  | notText => "stream did not contain valid UTF-8"
  | other reason => reason

/-- What the command line asks of the files around it. -/
structure FileSystem (m : Type → Type) where
  /-- A name that all paths to one file share. -/
  canonicalize : String → m (Except FileError String)
  read : String → m (Except FileError String)
  isFile : String → m Bool
  isDirectory : String → m Bool
  makeDirectory : String → m (Except FileError Unit)
  write : String → String → m (Except FileError Unit)

namespace Path

/-- A path inside a directory, as it is written. -/
def join (directory name : String) : String :=
  if directory.toList.getLast? = some '/' then directory ++ name else directory ++ "/" ++ name

/-- The end of a path, last character first, without final slashes and dots that say nothing. -/
def trimEnd : List Char → List Char
  | ['/'] => ['/']
  | '/' :: cs => trimEnd cs
  | ['.', '/'] => ['/']
  | '.' :: '/' :: cs => trimEnd cs
  | cs => cs

/-- The directory that a written path is in. -/
def directoryOf (path : String) : String :=
  .ofList (trimEnd (path.toList.reverse.dropWhile (· != '/'))).reverse

/-- A directory and those around it as they are written, from the inside out. -/
def outward (path : String) : List String :=
  if path = "" then []
  else if (directoryOf path).length < path.length then path :: outward (directoryOf path)
  else [path]
termination_by path.length

end Path

namespace FileSystem

variable {m : Type → Type} [Monad m]

/-- Makes a directory; one that is there is as good. -/
def ensureDirectory (fs : FileSystem m) (path : String) : m (Except FileError Unit) := do
  match ← fs.makeDirectory path with
  | .ok () => return .ok ()
  | .error e => if ← fs.isDirectory path then return .ok () else return .error e

/-- Makes a directory, given with those around it from the inside out, and as many of them as
are missing. -/
def createDirectories (fs : FileSystem m) : List String → m (Except FileError Unit)
  | [] => return .ok ()
  | path :: outer => do
    match ← fs.ensureDirectory path with
    | .error .notFound =>
      match ← fs.createDirectories outer with
      | .ok () => fs.ensureDirectory path
      | .error e => return .error e
    | result => return result

def provider (fs : FileSystem m) : Provider m where
  canonicalize path := return (← fs.canonicalize path).mapError FileError.message
  read path := return (← fs.read path).mapError FileError.message

end FileSystem

end ConceptScript
