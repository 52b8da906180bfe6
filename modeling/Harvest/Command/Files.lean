/-
  Harvest.Command.Files — the files a command reads and writes.

  A command sees files through two operations on paths in any monad, so that it runs
  both on a disk and on a directory held as a value. A write succeeds completely or
  changes nothing.

  A path is walked name by name: every name but the last has to lead to a directory,
  and the first name that does not decides the error. A file followed by a slash cannot
  be read, and no file can be written to a path that ends in one. Of what lies outside
  the directory only the directories above it and the root are known.
-/

namespace Harvest

inductive FileError where
  | notFound
  | notDirectory
  | isDirectory
  | nameTooLong
  | other (message : String)
  deriving DecidableEq, Repr

def FileError.message : FileError → String
  | .notFound => "No such file or directory (os error 2)"
  | .notDirectory => "Not a directory (os error 20)"
  | .isDirectory => "Is a directory (os error 21)"
  | .nameTooLong => "File name too long (os error 36)"
  | .other message => message

structure Files (m : Type → Type) where
  read : String → m (Except FileError ByteArray)
  write : String → ByteArray → m (Except FileError Unit)

/-! ## Paths -/

/-- Where a path starts. -/
inductive Origin where
  | root
  /-- So many levels above the directory itself. -/
  | above (levels : Nat)
  deriving DecidableEq, Repr

/-- A place below an origin, by the names on the way down. -/
structure Place where
  origin : Origin
  names : List String
  deriving DecidableEq, Repr

namespace Place

def child (p : Place) (name : String) : Place := { p with names := p.names ++ [name] }

/-- The directory that holds a place. The root holds itself. -/
def parent : Place → Place
  | ⟨.above levels, []⟩ => ⟨.above (levels + 1), []⟩
  | ⟨origin, names⟩ => ⟨origin, names.dropLast⟩

end Place

/-- A path taken apart. -/
structure Path where
  origin : Origin
  /-- The names of the directories to enter. -/
  way : List String
  last : String
  /-- Whether a slash follows the last name. -/
  closed : Bool
  deriving DecidableEq, Repr

namespace Path

/-- The least number of bytes that is too many for a path. -/
def lengthBound : Nat := 4096

/-- The most bytes that a name may have. -/
def nameLimit : Nat := 255

def namesOf (path : String) : List String := ((path.toList.splitOn '/').map String.ofList).filter (· != "")

/-- Several slashes count as one; a path of slashes alone is the root. -/
def ofString (s : String) : Except FileError Path :=
  if s.isEmpty then .error .notFound
  else if lengthBound ≤ s.utf8ByteSize then .error .nameTooLong
  else .ok {
    origin := if s.startsWith "/" then .root else .above 0
    way := (namesOf s).dropLast
    last := (namesOf s).getLastD "."
    closed := s.endsWith "/" }

end Path

/-! ## A directory as a value -/

/-- The files of a directory by their places. -/
structure Directory where
  files : List (Place × ByteArray)

namespace Directory

/-- The directory of the files with these paths below it. -/
def ofList (files : List (String × ByteArray)) : Directory :=
  ⟨files.map fun (path, content) => (⟨.above 0, Path.namesOf path⟩, content)⟩

/-- What is at a place. -/
inductive Found where
  | file (content : ByteArray)
  | directory
  | nothing

/-- Whether a place is an origin or on the way to a file. -/
def isDirectory (d : Directory) (p : Place) : Bool :=
  p.names.isEmpty || d.files.any fun (q, _) => q.origin == p.origin && p.names.isPrefixOf q.names && p != q

def look (d : Directory) (p : Place) : Found :=
  match d.files.find? (·.1 == p) with
  | some (_, content) => .file content
  | none => if d.isDirectory p then .directory else .nothing

/-- One name further from the directory at a place. -/
def step (d : Directory) (p : Place) (name : String) : Except FileError (Place × Found) :=
  if name = "." then .ok (p, .directory)
  else if name = ".." then .ok (p.parent, .directory)
  else if Path.nameLimit < name.utf8ByteSize then .error .nameTooLong
  else .ok (p.child name, d.look (p.child name))

/-- The directory that a name leads to. -/
def enter (d : Directory) (p : Place) (name : String) : Except FileError Place :=
  match d.step p name with
  | .ok (q, .directory) => .ok q
  | .ok (_, .file _) => .error .notDirectory
  | .ok (_, .nothing) => .error .notFound
  | .error e => .error e

/-- The directory that the last name of a path is looked up in. -/
def walk (d : Directory) (path : Path) : Except FileError Place := path.way.foldlM d.enter ⟨path.origin, []⟩

def read (d : Directory) (path : String) : Except FileError ByteArray := do
  let path ← Path.ofString path
  match ← d.step (← d.walk path) path.last with
  | (_, .file content) => if path.closed then throw .notDirectory else return content
  | (_, .directory) => throw .isDirectory
  | (_, .nothing) => throw .notFound

/-- The directory with the file replaced, or with one more file. -/
def write (d : Directory) (path : String) (content : ByteArray) : Except FileError Directory := do
  let path ← Path.ofString path
  let base ← d.walk path
  if path.closed then throw .isDirectory
  match ← d.step base path.last with
  | (p, .file _) => return ⟨d.files.map fun f => if f.1 = p then (p, content) else f⟩
  | (p, .nothing) => return ⟨d.files ++ [(p, content)]⟩
  | (_, .directory) => throw .isDirectory

/-- The operations on a directory that is the state of a computation. -/
def operations : Files (StateM Directory) where
  read path := return (← get).read path
  write path content := do
    match (← get).write path content with
    | .ok d => set d; return .ok ()
    | .error e => return .error e

end Directory

end Harvest
