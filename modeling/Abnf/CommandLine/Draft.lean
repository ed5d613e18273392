import Abnf.CommandLine.Request
import Abnf.CommandLine.Usage

/-! Drafts: what has been read of a command line so far, and how each argument changes it. -/

namespace Abnf.CommandLine

inductive Switch where
  | allowIncomplete | rejectOverrides | strict | json | trace | full
  deriving DecidableEq, Repr

/-- What has been read of a command line so far. --/
structure Draft where
  operands : List String := []
  switches : List Switch := []
  color : Option ColorChoice := none
  text : Option String := none
  observe : List String := []
  verbosity : Option Nat := none
  deriving DecidableEq, Repr

namespace Draft

/-- Take up a path, which cannot be empty. --/
def addPath (w : String) : Change Draft := fun d =>
  if w.isEmpty then .error .invalidValue else .ok { d with operands := d.operands ++ [w] }

def addWord (w : String) : Change Draft := fun d => .ok { d with operands := d.operands ++ [w] }

/-- Turn a switch, which can be turned once. --/
def turn (s : Switch) : Change Draft := fun d =>
  if d.switches.contains s then .error .conflict else .ok { d with switches := s :: d.switches }

/-- Choose the colors, which can be done once. --/
def setColor (value : String) : Change Draft := fun d =>
  if d.color.isSome then .error .conflict
  else
    match ColorChoice.ofName? value with
    | some c => .ok { d with color := some c }
    | none => .error .invalidValue

/-- Give the input, which can be done once. --/
def setText (value : String) : Change Draft := fun d =>
  if d.text.isSome then .error .conflict else .ok { d with text := some value }

/-- Observe the rules of a list with commas between. --/
def addObserved (value : String) : Change Draft := fun d =>
  .ok { d with observe := d.observe ++ (Digits.split ',' value.toList).map String.ofList }

/-- The number of requests for more logging stays at its greatest. --/
def maxVerbosity : Nat := 255

def countVerbose : Change Draft := fun d =>
  .ok { d with verbosity := some (min maxVerbosity (d.verbosity.getD 0 + 1)) }

def has (d : Draft) (s : Switch) : Bool := d.switches.contains s

def colorChoice (d : Draft) : ColorChoice := d.color.getD .auto

def compiling (d : Draft) : Compiling :=
  { allowIncomplete := d.has .allowIncomplete, rejectOverrides := d.has .rejectOverrides, color := d.colorChoice }

end Draft

end Abnf.CommandLine
