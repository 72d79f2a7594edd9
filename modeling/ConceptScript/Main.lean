import ConceptScript.Command

namespace ConceptScript

def FileError.ofCode (code : UInt32) (details : String) : FileError :=
  if code = 2 then .notFound
  else if code = 17 then .alreadyExists
  else if code = 20 then .notADirectory
  else if code = 21 then .isADirectory
  else if code = 36 then .nameTooLong
  else .other s!"{details} (os error {code})"

def FileError.ofError : IO.Error → FileError
  | .noFileOrDirectory _ code details => ofCode code details
  | .alreadyExists _ code details => ofCode code details
  | .inappropriateType _ code details => ofCode code details
  | .permissionDenied _ code details => ofCode code details
  | .otherError code details => ofCode code details
  | e => .other (toString e)

def attempt {α : Type} (action : IO α) : IO (Except FileError α) := do
  try return .ok (← action)
  catch e => return .error (FileError.ofError e)

def isDirectoryAt (path : String) : IO Bool := do
  return (← (← IO.FS.realPath path).isDir)

/-- The files of the machine. -/
def machine : FileSystem IO where
  canonicalize path := attempt do
    return (← IO.FS.realPath path).toString
  read path := do
    match ← attempt (IO.FS.readBinFile path) with
    | .error e => return .error e
    | .ok bytes =>
      match String.fromUTF8? bytes with
      | some text => return .ok text
      | none => return .error .notText
  isFile path := do
    match ← attempt (isDirectoryAt path) with
    | .ok directory => return !directory
    | .error _ => return false
  isDirectory path := do
    match ← attempt (isDirectoryAt path) with
    | .ok directory => return directory
    | .error _ => return false
  makeDirectory path := attempt (IO.FS.createDir path)
  write path content := attempt (IO.FS.writeFile path content)

end ConceptScript

def main (arguments : List String) : IO UInt32 := do
  let result ← ConceptScript.Command.run ConceptScript.machine arguments
  (← IO.getStdout).putStr result.output
  (← IO.getStderr).putStr result.errors
  return result.exit.toUInt32
