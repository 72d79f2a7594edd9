import ConceptScript.Files

namespace ConceptScript

/-- A file with its bytes, or a directory. -/
inductive Item where
  | file (bytes : ByteArray)
  | directory
  deriving Inhabited

/-- Files by the names that lead to them from the root. Directories on the way to a file need no
item of their own. -/
structure Tree where
  /-- The working directory, which is there even if it is empty. -/
  home : List String := []
  items : List (List String × Item) := []

namespace Tree

/-- The longest name in a directory, in bytes. -/
def nameLimit : Nat := 255

/-- The longest path that can be opened, in bytes. -/
def pathLimit : Nat := 4095

def find? (t : Tree) (place : List String) : Option Item :=
  match t.items.find? fun (names, _) => names == place with
  | some (_, item) => some item
  | none =>
    if place.isPrefixOf t.home || t.items.any fun (names, _) => place.isPrefixOf names then
      some .directory
    else none

def put (t : Tree) (place : List String) (item : Item) : Tree :=
  { t with items := (place, item) :: t.items.filter fun (names, _) => names != place }

/-- Only a directory can be walked through. -/
def enter (t : Tree) (place : List String) : Except FileError Unit :=
  match t.find? place with
  | some .directory => .ok ()
  | some (.file _) => .error .notADirectory
  | none => .error .notFound

/-- Walks from a place along the segments of a written path. The root is above itself. -/
def walk (t : Tree) (place : List String) : List String → Except FileError (List String)
  | [] => .ok place
  | segment :: segments => do
    t.enter place
    if segment = "" || segment = "." then t.walk place segments
    else if segment = ".." then t.walk place.dropLast segments
    else if segment.utf8ByteSize > nameLimit then throw .nameTooLong
    else t.walk (place ++ [segment]) segments

def segmentsOf (path : String) : List String := (Text.fields '/' path.toList).map .ofList

/-- The place that a path leads to, whether something is there or not. -/
def resolve (t : Tree) (path : String) : Except FileError (List String) :=
  t.walk (if path.toList.head? = some '/' then [] else t.home) (segmentsOf path)

def itemAt (t : Tree) (place : List String) : Except FileError Item :=
  match t.find? place with
  | some item => .ok item
  | none => .error .notFound

/-- The name of what is at a path, whose length does not matter here. -/
def canonicalize (t : Tree) (path : String) : Except FileError String := do
  let place ← t.resolve path
  let _ ← t.itemAt place
  return "/" ++ "/".intercalate place

/-- The place of a path that is to be opened. -/
def locate (t : Tree) (path : String) : Except FileError (List String) :=
  if path.utf8ByteSize > pathLimit then .error .nameTooLong else t.resolve path

def look (t : Tree) (path : String) : Except FileError Item := do t.itemAt (← t.locate path)

def read (t : Tree) (path : String) : Except FileError String := do
  match ← t.look path with
  | .directory => throw .isADirectory
  | .file bytes =>
    match String.fromUTF8? bytes with
    | some text => return text
    | none => throw .notText

def isFile (t : Tree) (path : String) : Bool :=
  match t.look path with
  | .ok (.file _) => true
  | _ => false

def isDirectory (t : Tree) (path : String) : Bool :=
  match t.look path with
  | .ok .directory => true
  | _ => false

def makeDirectory (t : Tree) (path : String) : Except FileError Tree := do
  let place ← t.locate path
  if (t.find? place).isSome then throw .alreadyExists
  t.enter place.dropLast
  return t.put place .directory

def write (t : Tree) (path content : String) : Except FileError Tree := do
  let place ← t.locate path
  match t.find? place with
  | some .directory => throw .isADirectory
  | _ =>
    t.enter place.dropLast
    return t.put place (.file content.toUTF8)

/-- Keeps the changed tree, if there is one. -/
def change (f : Tree → Except FileError Tree) : StateM Tree (Except FileError Unit) := do
  match f (← get) with
  | .ok t =>
    set t
    return .ok ()
  | .error e => return .error e

def fileSystem : FileSystem (StateM Tree) where
  canonicalize path := return (← get).canonicalize path
  read path := return (← get).read path
  isFile path := return (← get).isFile path
  isDirectory path := return (← get).isDirectory path
  makeDirectory path := change (·.makeDirectory path)
  write path content := change (·.write path content)

end Tree

end ConceptScript
