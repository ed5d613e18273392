import Abnf.Grammar.Core
import Abnf.Library.Document
import Abnf.Library.Saved

/-! Loaders find grammars by name and remember what they have loaded. A name is looked for in the
    directories of the application, the latest first, and then in those of the system. A file holds a
    grammar as it was saved or a document, which is compiled over the core rules. -/

namespace Abnf

/-- Why a grammar is not loaded. --/
inductive LoadError where
  | notFound (name : String) (searched : List Path)
  | unloadable (path : Path) (cause : BinaryError)
  | document (cause : DocumentError)

namespace LoadError

def message : LoadError → String
  | notFound name searched => s!"grammar `{name}` not found (searched {searched.length} directories)"
  | unloadable path cause => s!"cannot load `{path}`: {cause.message}"
  | document cause => cause.message

end LoadError

namespace Library

/-- The grammar that the content of a file holds, in either form. --/
def grammarOfContent (p : Path) (content : List UInt8) : Except LoadError Grammar :=
  if Binary.hasMagic content then (Binary.decode content).mapError (.unloadable p)
  else
    match Utf8.text? content with
    | some source =>
      match compileText source { name := grammarName p, base := some coreRules } with
      | .ok c => .ok c.grammar
      | .error e => .error (.document e)
    | none => .error (.document (.unreadable p (((Utf8.fault? content).map IoError.fault).getD .notText)))

/-- Load the grammar of a file. --/
def loadFile (files : FileTree) (p : Path) : Except LoadError Grammar :=
  match files.read p with
  | .ok content => grammarOfContent p content
  | .error e => .error (.unloadable p (.io e))

end Library

/-- A grammar as it was loaded once. The loads of a loader are numbered, which tells them apart even where
    their grammars are equal. --/
structure Loaded where
  serial : Nat
  grammar : Grammar

structure Loader where
  /-- The directories of the application, the latest first. --/
  appPaths : List Path := []
  systemPaths : List Path := []
  /-- What has been loaded under which name. --/
  cache : List (String × Loaded) := []
  /-- The number of loads so far. --/
  loads : Nat := 0

namespace Loader

/-- The loader whose system paths are those of a list with colons between, if there is one. --/
def ofPathList (paths : Option String) : Loader :=
  { systemPaths := paths.elim [] fun s => (Digits.split ':' s.toList).map String.ofList }

/-! ### Paths -/

/-- Search a directory before all others. --/
def addPath (l : Loader) (dir : Path) : Loader := { l with appPaths := dir :: l.appPaths }

/-- Forget the directories of the application. --/
def clearPaths (l : Loader) : Loader := { l with appPaths := [] }

def searchPaths (l : Loader) : List Path := l.appPaths ++ l.systemPaths

/-- The paths at which a grammar of this name may be. --/
def candidates (l : Loader) (name : String) : List Path :=
  if Path.isAbsolute name then [name] else l.searchPaths.map fun dir => Path.join dir name

/-- The path of the file that a name stands for now. --/
def lookup (l : Loader) (files : FileTree) (name : String) : Option Path := (l.candidates name).find? files.isFile

/-! ### Loading -/

/-- What a name has been loaded as. --/
def cached? (l : Loader) (name : String) : Option Loaded := l.cache.lookup name

def isCached (l : Loader) (name : String) : Bool := (l.cached? name).isSome

/-- Forget what has been loaded. --/
def clearCache (l : Loader) : Loader := { l with cache := [] }

/-- Remember a grammar under a name. --/
def remember (l : Loader) (name : String) (g : Grammar) : Loaded × Loader :=
  let loaded : Loaded := ⟨l.loads, g⟩
  (loaded, { l with cache := (name, loaded) :: l.cache, loads := l.loads + 1 })

/-- The grammar of a name, from the cache or from its file. --/
def load (l : Loader) (files : FileTree) (name : String) : Except LoadError Loaded × Loader :=
  match l.cached? name with
  | some loaded => (.ok loaded, l)
  | none =>
    match l.lookup files name with
    | none => (.error (.notFound name l.searchPaths), l)
    | some path =>
      match Library.loadFile files path with
      | .error e => (.error e, l)
      | .ok g => let (loaded, l) := l.remember name g; (.ok loaded, l)

end Loader
end Abnf
