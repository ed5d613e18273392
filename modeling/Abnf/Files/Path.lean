import Abnf.Files.IoError
import Abnf.Text.Number

/-! Paths. A path is kept as it was written, because messages show it so. -/

namespace Abnf

/-- A path as it was written. --/
abbrev Path := String

namespace Path

def isAbsolute (p : Path) : Bool := p.toList.head? == some '/'

/-- Whether a path asks for a directory by a slash at its end. --/
def endsInSlash (p : Path) : Bool := p.toList.getLast? == some '/'

/-- A path below a directory; an absolute one stands for itself. --/
def join (dir name : Path) : Path :=
  if isAbsolute name || dir.isEmpty then name
  else if endsInSlash dir then dir ++ name
  else dir ++ "/" ++ name

/-- The names between slashes, to be walked from the root or from the current directory. --/
def names (p : Path) : List String := ((Digits.split '/' p.toList).map String.ofList).filter (· != "")

/-- The steps to walk from the root or from the current directory. A slash at the end is a step to the
    directory itself. --/
def steps (p : Path) : List String := if endsInSlash p then names p ++ ["."] else names p

/-! ### What a path may be -/

/-- The greatest number of bytes in a path. --/
def maxSize : Nat := 4095

/-- The greatest number of bytes in a name. --/
def maxNameSize : Nat := 255

/-- Why a path cannot be walked, wherever it leads, if it cannot. --/
def fault? (p : Path) : Option IoError :=
  if p.toList.contains '\x00' then some .nulInPath
  else if p.isEmpty then some .notFound
  else if maxSize < p.utf8ByteSize then some .nameTooLong
  else none

/-! ### Names of files -/

/-- The last name of a path, if it is one of something below a directory. --/
def fileName? (p : Path) : Option String := ((names p).filter (· != ".")).getLast?.filter (· != "..")

/-- A file name without its extension. A dot at the front begins no extension. --/
def stemOf (file : String) : String :=
  let reversed := file.toList.reverse
  let extension := reversed.takeWhile (· != '.')
  match reversed.drop extension.length with
  | '.' :: stem => if stem.isEmpty then file else String.ofList stem.reverse
  | _ => file

/-- The last name of a path without its extension. --/
def stem? (p : Path) : Option String := (fileName? p).map stemOf

end Path
end Abnf
