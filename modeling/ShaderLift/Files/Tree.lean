import ShaderLift.Files.System

/-!
A tree of files held in memory, below the directory that paths start from. A place elsewhere begins
with steps to a parent or with the root; of those only the directories on the way are known.
-/

namespace ShaderLift

inductive File where
  | directory
  | bytes (content : List UInt8)
  deriving DecidableEq, Repr

structure FileTree where
  /-- Files and directories by the names on the way to them. -/
  entries : List (List String × File) := []

namespace FileTree

/-- The starting directory, one that it is in, or the root. -/
def isAncestor (place : List String) : Bool :=
  place.all (· = "..") || place = ["/"]

/-- The directories on the way to an entry need no entry of their own, nor do those that hold the
starting directory. -/
def get? (t : FileTree) (place : List String) : Option File :=
  match t.entries.lookup place with
  | some file => some file
  | none =>
    if isAncestor place || t.entries.any fun e => place.isPrefixOf e.1 then some .directory
    else none

/-- The entries below the starting directory. -/
def below (t : FileTree) : List (List String × File) :=
  t.entries.filter fun e => e.1.head? ≠ some ".." && e.1.head? ≠ some "/"

def put (t : FileTree) (place : List String) (content : List UInt8) : FileTree :=
  ⟨(place, .bytes content) :: t.entries.filter fun e => e.1 ≠ place⟩

def enter (t : FileTree) (place : List String) : Except FileError Unit :=
  match t.get? place with
  | some .directory => .ok ()
  | some (.bytes _) => .error .notADirectory
  | none => .error .notFound

/-- The root is its own parent. -/
def parent (place : List String) : List String :=
  if place = ["/"] then place
  else if isAncestor place then place ++ [".."]
  else place.dropLast

/-- The place that a name leads to from a directory. -/
def step (place : List String) (name : String) : List String :=
  if name = "" || name = "." then place
  else if name = ".." then parent place
  else place ++ [name]

/-- The longest name that a directory takes, in bytes. -/
def nameLimit : Nat := 255

/-- The longest path, in bytes. -/
def pathLimit : Nat := 4095

/-- Follows names from a directory; all but the last have to lead to directories. -/
def follow (t : FileTree) (place : List String) : List String → Except FileError (List String)
  | [] => .ok place
  | name :: rest => do
    t.enter place
    if name.utf8ByteSize > nameLimit then throw .nameTooLong
    t.follow (step place name) rest

/-- The directory that a path starts from. A path is not empty and not too long, and no name in it
holds a NUL, which would end it. -/
def start (path : String) : Except FileError (List String) :=
  if path.toList.contains '\x00' then .error .nulInName
  else if path.utf8ByteSize > pathLimit then .error .nameTooLong
  else
    match path.toList with
    | [] => .error .notFound
    | c :: _ => .ok (if c = '/' then ["/"] else [])

/-- What stands between the slashes of a path, which may be nothing. -/
def names (path : String) : List String := (path.toList.splitOn '/').map String.ofList

/-- The place that a path names. -/
def resolve (t : FileTree) (path : String) : Except FileError (List String) := do
  t.follow (← start path) (names path)

def read (t : FileTree) (path : String) : Except FileError String := do
  let place ← t.resolve path
  match t.get? place with
  | none => throw .notFound
  | some .directory => throw .isADirectory
  | some (.bytes content) =>
    match String.fromUTF8? ⟨content.toArray⟩ with
    | some text => return text
    | none => throw .notText

def exists? (t : FileTree) (path : String) : Bool :=
  match t.resolve path with
  | .ok place => (t.get? place).isSome
  | .error _ => false

/-- Writes a file into a directory that is there. A path with a slash at its end can only name a
directory, which cannot be written, so its last name is not looked at. -/
def write (t : FileTree) (path text : String) : Except FileError FileTree := do
  let names := (names path).filter (· ≠ "")
  let folder ← t.follow (← start path) names.dropLast
  t.enter folder
  if path.toList.getLast? = some '/' then throw .isADirectory
  let place ← t.follow folder (names.drop (names.length - 1))
  match t.get? place with
  | some .directory => throw .isADirectory
  | _ => return t.put place text.toUTF8.data.toList

/-- The tree as a file system whose state it is. -/
def system : FileSystem (StateM FileTree) where
  read path := return (← get).read path
  exists? path := return (← get).exists? path
  write path text := do
    match (← get).write path text with
    | .ok t => set t; return .ok ()
    | .error e => return .error e

end FileTree
end ShaderLift
