import RowFlow.Fault

/-
Trees of files and folders, as a place to store definitions in.  A path is a list of
names between slashes: empty names and `.` stay where they are, `..` goes up, and any
other name goes down.  Each name of a path but the last has to lead to a folder, so
`f/..` leads nowhere when `f` is a file.

Paths start at a folder, `home`, that lies in other folders.  Whatever is in the tree, a
path with a null character is refused, and so is one with more bytes than `pathLimit`; a
name with more bytes than `nameLimit` is refused where it is looked up.
-/
namespace RowFlow

structure FileTree where
  /-- The ways down from the top to all folders, those on the way home apart. -/
  folders : List (List String) := []
  /-- The ways down to all files, with their bytes. -/
  files : List (List String × List UInt8) := []
deriving DecidableEq, Repr

namespace FileTree

/-- The way down from the top to where paths start.  No path spells these names, for
they have slashes. -/
def home : List String := ["/", "//"]

def nameLimit : Nat := 255

/-- The most bytes in a path from `home`. -/
def pathLimit : Nat := 4079

def names (path : String) : List String := (path.splitToList (· == '/'))

/-- A name that stays where it is. -/
def isIdle (name : String) : Bool := name.isEmpty || name == "."

/-- The bytes in a path, a slash between two names among them. -/
def byteSize (path : List String) : Nat := ("/".intercalate path).utf8ByteSize

def checkPath (path : List String) : Except FileFailure Unit :=
  if path.any (·.contains '\x00') then .error .invalidPath
  else if pathLimit < byteSize path then .error .nameTooLong
  else .ok ()

def isFolder (t : FileTree) (way : List String) : Bool :=
  way.isPrefixOf home || t.folders.contains way

def file? (t : FileTree) (way : List String) : Option (List UInt8) := t.files.lookup way

def exists? (t : FileTree) (way : List String) : Bool := t.isFolder way || (t.file? way).isSome

def noFolder (t : FileTree) (way : List String) : FileFailure :=
  if (t.file? way).isSome then .notDirectory else .notFound

/-- Where a name leads from a way that leads to a folder. -/
def enter (way : List String) (name : String) : Except FileFailure (List String) :=
  if isIdle name then .ok way
  else if name = ".." then .ok way.dropLast
  else if nameLimit < name.utf8ByteSize then .error .nameTooLong
  else .ok (way ++ [name])

/-- Where names lead to from a way.  What they lead to need not be there. -/
def locate (t : FileTree) (way : List String) : List String → Except FileFailure (List String)
  | [] => .ok way
  | name :: rest =>
    if t.isFolder way then
      match enter way name with
      | .error f => .error f
      | .ok way => t.locate way rest
    else .error (t.noFolder way)

def locateParent (t : FileTree) (path : List String) : Except FileFailure (List String) := do
  let way ← t.locate home path.dropLast
  if t.isFolder way then return way else throw (t.noFolder way)

def read (t : FileTree) (path : List String) : Except FileFailure (List UInt8) := do
  checkPath path
  let way ← t.locate home path
  if t.isFolder way then throw .isDirectory
  match t.file? way with
  | some bytes => return bytes
  | none => throw .notFound

def put (t : FileTree) (way : List String) (bytes : List UInt8) : FileTree :=
  { t with files := (way, bytes) :: t.files.filter (·.1 != way) }

def trimSlashes (path : List String) : List String :=
  (path.reverse.dropWhile (·.isEmpty)).reverse

/-- Writes a file in a folder that is there.  A path with a slash at its end is none of a
file. -/
def write (t : FileTree) (path : List String) (bytes : List UInt8) :
    Except FileFailure FileTree := do
  checkPath path
  let way ← t.locateParent (trimSlashes path)
  let name := path.getLastD ""
  if isIdle name || name == ".." then throw .isDirectory
  let way ← enter way name
  if t.isFolder way then throw .isDirectory
  return t.put way bytes

def makeFolder (t : FileTree) (path : List String) : Except FileFailure FileTree := do
  checkPath path
  let way ← t.locateParent path
  let name := path.getLastD ""
  if isIdle name || name == ".." then throw .alreadyExists
  let way ← enter way name
  if t.exists? way then throw .alreadyExists
  return { t with folders := way :: t.folders }

def leadsToFolder (t : FileTree) (path : List String) : Bool :=
  match t.locate home path with
  | .ok way => t.isFolder way
  | .error _ => false

/-- Makes a folder and those above it that are missing.  The path is given from its
end. -/
def makeFoldersUp (t : FileTree) : List String → FileTree × Except FileFailure Unit
  | [] => (t, .ok ())
  | name :: up =>
    let path := (name :: up).reverse
    let settle (t : FileTree) (f : FileFailure) : FileTree × Except FileFailure Unit :=
      (t, if t.leadsToFolder path then .ok () else .error f)
    if isIdle name then t.makeFoldersUp up
    else
      match t.makeFolder path with
      | .ok t => (t, .ok ())
      | .error .notFound =>
        match t.makeFoldersUp up with
        | (t, .error f) => (t, .error f)
        | (t, .ok ()) =>
          match t.makeFolder path with
          | .ok t => (t, .ok ())
          | .error f => settle t f
      | .error f => settle t f

def makeFolders (t : FileTree) (path : List String) : FileTree × Except FileFailure Unit :=
  t.makeFoldersUp path.reverse

def parentOf (path : List String) : List String :=
  (((path.reverse.dropWhile isIdle).drop 1).dropWhile isIdle).reverse

/-- Writes a file, with the folders that are missing on the way to it. -/
def save (t : FileTree) (path : List String) (bytes : List UInt8) :
    FileTree × Except FileFailure Unit :=
  match t.makeFolders (parentOf path) with
  | (t, .error f) => (t, .error f)
  | (t, .ok ()) =>
    match t.write path bytes with
    | .ok t => (t, .ok ())
    | .error f => (t, .error f)

def readText (t : FileTree) (path : List String) : Except FileFailure String :=
  match t.read path with
  | .error f => .error f
  | .ok bytes =>
    match String.fromUTF8? ⟨bytes.toArray⟩ with
    | some s => .ok s
    | none => .error .notText

end FileTree
end RowFlow
