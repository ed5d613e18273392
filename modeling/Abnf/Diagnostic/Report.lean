import Abnf.Diagnostic.Basic
import Abnf.Text.Visible

/-! Reports: diagnostics told against their source, in the order of the source, each with its title, the
    place as line and column, and the help it offers. A report marks bytes of the source, so it can only be
    told if no span of the diagnostic cuts through a character. -/

namespace Abnf.Diagnostic

/-! ### Marked bytes -/

/-- The number of bytes of characters. --/
def byteSize (source : List Char) : Nat := source.foldl (fun n c => n + c.utf8Size) 0

/-- The characters that follow the first `bytes` bytes; none if that is within a character or past the
    end. --/
def after? (bytes : Nat) : List Char → Option (List Char)
  | [] => if bytes = 0 then some [] else none
  | c :: cs =>
    if bytes = 0 then some (c :: cs)
    else if bytes < c.utf8Size then none
    else after? (bytes - c.utf8Size) cs

/-- The bytes that a report marks for a span: those that the source has of it or, if there are none, the
    character that begins there, so that the mark can be seen anywhere but at the end. None if the span cuts
    through a character. --/
def marked? (source : List Char) (s : Span) : Option Span := do
  let size := byteSize source
  let start := min s.start size
  let stop := min s.stop size
  let following ← after? start source
  let _ ← after? stop source
  if start < stop then return ⟨start, stop⟩
  return ⟨start, start + (following.head?.map Char.utf8Size).getD 0⟩

/-- Whether every span of a diagnostic can be marked. --/
def isTellable (source : List Char) (d : Diagnostic) : Bool :=
  (marked? source d.span).isSome && d.related.all fun r => (marked? source r.span).isSome

/-! ### Places -/

/-- A place in a source as people count it, from one. --/
structure Place where
  line : Nat
  column : Nat
  deriving DecidableEq, Repr

namespace Place

/-- The place after a character. --/
def advance (p : Place) (c : Char) : Place :=
  if c == '\n' then ⟨p.line + 1, 1⟩ else ⟨p.line, p.column + 1⟩

/-- The place reached from `p` by walking over characters for `bytes` bytes. The end of the last line begins
    no further line and takes one column, whether it is a newline or a carriage return and a newline. --/
def walk (p : Place) (bytes : Nat) : List Char → Place
  | [] => p
  | ['\n'] | ['\r', '\n'] => if bytes = 0 then p else ⟨p.line, p.column + 1⟩
  | c :: cs => if bytes = 0 then p else walk (p.advance c) (bytes - c.utf8Size) cs

/-- The place of a byte offset. --/
def of (source : List Char) (offset : Nat) : Place := walk ⟨1, 1⟩ offset source

end Place

/-! ### Lines -/

/-- The lines that tell of one diagnostic; the place only if the source has a path. The title quotes the
    source and is made visible. Of a text of several lines a report tells the first. --/
def report (source : List Char) (path : Option String) (d : Diagnostic) : List String :=
  let place := Place.of source d.span.start
  let title := s!"{d.severity.name}: {visible d.message}"
  let arrow := path.toList.map fun p => s!"--> {p}:{place.line}:{place.column}"
  let hints := d.hints.map fun h => s!"= help: {Visible.firstLine h}"
  let fix := d.fix.toList.map fun f => s!"help: {Visible.firstLine f.description}"
  title :: arrow ++ hints ++ fix

/-- Diagnostics in the order of their start; those at one start keep their order. --/
def inSourceOrder (ds : List Diagnostic) : List Diagnostic :=
  ds.mergeSort fun a b => decide (a.span.start ≤ b.span.start)

/-- The lines that tell of all diagnostics. --/
def reports (source : String) (path : Option String) (ds : List Diagnostic) : List String :=
  (inSourceOrder ds).flatMap (report source.toList path)

/-- The lines that tell of all diagnostics; none if one of them cannot be told against this source. --/
def reports? (source : String) (path : Option String) (ds : List Diagnostic) : Option (List String) :=
  if ds.all (isTellable source.toList) then some (reports source path ds) else none

end Abnf.Diagnostic
