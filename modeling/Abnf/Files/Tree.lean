import Abnf.Files.IoError
import Abnf.Files.Path

/-! A file system at one moment: which places hold files and which are directories. -/

namespace Abnf

/-- The names on the way from the root of the file system to a place in it. --/
abbrev Location := List String

inductive Entry where
  | file (content : List UInt8)
  | directory
  deriving DecidableEq, Repr

structure FileTree where
  /-- The directory from which relative paths are walked. --/
  current : Location
  /-- What is where, the latest first. --/
  entries : List (Location × Entry)

namespace FileTree

/-- The file system that holds nothing but the current directory and those above it. --/
def empty (current : Location) : FileTree :=
  ⟨current, (List.range (current.length + 1)).map fun n => (current.take n, .directory)⟩

def entry? (t : FileTree) (l : Location) : Option Entry := t.entries.lookup l

/-! ### Walking -/

/-- A way leads on from a place only if that is a directory. --/
def enter (t : FileTree) (here : Location) : Except IoError Unit :=
  match t.entry? here with
  | none => .error .notFound
  | some (.file _) => .error .notADirectory
  | some .directory => .ok ()

/-- The place one step away from a place. --/
def walk (t : FileTree) (here : Location) (name : String) : Except IoError Location := do
  t.enter here
  if name == "." then return here
  if name == ".." then return here.dropLast
  if Path.maxNameSize < name.utf8ByteSize then throw .nameTooLong
  return here ++ [name]

/-- The place that some steps of a path lead to, if the path can be walked at all. --/
def follow (t : FileTree) (p : Path) (steps : List String) : Except IoError Location :=
  match Path.fault? p with
  | some e => .error e
  | none => steps.foldlM t.walk (if Path.isAbsolute p then [] else t.current)

/-- The place that a path leads to; something may be there or not. --/
def locate (t : FileTree) (p : Path) : Except IoError Location := t.follow p (Path.steps p)

/-! ### Reading -/

def read (t : FileTree) (p : Path) : Except IoError (List UInt8) := do
  match t.entry? (← t.locate p) with
  | some (.file content) => .ok content
  | some .directory => .error .isADirectory
  | none => .error .notFound

/-- The text of a file. --/
def readText (t : FileTree) (p : Path) : Except IoError String := do
  match Utf8.text? (← t.read p) with
  | some text => .ok text
  | none => .error .notText

/-- Whether a path leads to a file. --/
def isFile (t : FileTree) (p : Path) : Bool :=
  match t.read p with
  | .ok _ => true
  | .error _ => false

/-! ### Changing -/

def put (t : FileTree) (l : Location) (e : Entry) : FileTree :=
  { t with entries := (l, e) :: t.entries.filter fun x => x.1 != l }

/-- The place that a path leads to as the place of a file. A path that asks for a directory has none, once
    the way to its last name is clear. --/
def locateFile (t : FileTree) (p : Path) : Except IoError Location := do
  if Path.endsInSlash p then
    t.enter (← t.follow p (Path.names p).dropLast)
    throw .isADirectory
  t.locate p

/-- Write a file, in place of one that is there. --/
def write (t : FileTree) (p : Path) (content : List UInt8) : Except IoError FileTree := do
  let l ← t.locateFile p
  match t.entry? l with
  | some .directory => .error .isADirectory
  | some (.file _) | none => .ok (t.put l (.file content))

/-- Make a place and all above it directories, where nothing is yet. --/
def makeDirectories (t : FileTree) (l : Location) : FileTree :=
  (List.range (l.length + 1)).foldl (fun t n =>
    match t.entry? (l.take n) with
    | some _ => t
    | none => t.put (l.take n) .directory) t

/-- Remove a place and all below it. --/
def remove (t : FileTree) (l : Location) : FileTree :=
  { t with entries := t.entries.filter fun x => !l.isPrefixOf x.1 }

end FileTree
end Abnf
