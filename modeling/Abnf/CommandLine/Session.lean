import Abnf.Files.Tree

/-! Sessions: what a program asks of the world around it, one thing after the other. A session is a value,
    so what a command does can be told without doing it; on a file tree it is played to its end. -/

namespace Abnf.CommandLine

inductive Session (α : Type) where
  | done (value : α)
  | readFile (path : Path) (next : Except IoError (List UInt8) → Session α)
  /-- Read the standard input to its end. --/
  | readInput (next : List UInt8 → Session α)
  | writeFile (path : Path) (content : List UInt8) (next : Except IoError Unit → Session α)
  | print (text : String) (next : Session α)
  /-- Write lines to the standard error. --/
  | report (lines : List String) (next : Session α)

namespace Session

variable {α β : Type}

/-- One session and then another. --/
def andThen : Session α → (α → Session β) → Session β
  | done a, k => k a
  | readFile p next, k => readFile p fun r => (next r).andThen k
  | readInput next, k => readInput fun bs => (next bs).andThen k
  | writeFile p bs next, k => writeFile p bs fun r => (next r).andThen k
  | print s next, k => print s (next.andThen k)
  | report ls next, k => report ls (next.andThen k)

instance : Monad Session where
  pure := done
  bind := andThen

/-- The world around a session: the files, the standard input, and what has been written so far. --/
structure World where
  files : FileTree
  input : List UInt8
  output : String := ""
  reports : List String := []

/-- Play a session to its end. --/
def play : Session α → World → α × World
  | done a, w => (a, w)
  | readFile p next, w => (next (w.files.read p)).play w
  | readInput next, w => (next w.input).play { w with input := [] }
  | writeFile p bs next, w =>
    match w.files.write p bs with
    | .ok files => (next (.ok ())).play { w with files }
    | .error e => (next (.error e)).play w
  | print s next, w => next.play { w with output := w.output ++ s }
  | report ls next, w => next.play { w with reports := w.reports ++ ls }

end Session
end Abnf.CommandLine
