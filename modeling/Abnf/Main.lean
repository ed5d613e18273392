import Abnf.CommandLine.Run

/-! The outer layer: a session played against the real files and streams. The program compiles and nothing
    else when it is called by the compiler's name. -/

namespace Abnf.CommandLine

/-- The system's code for a path that goes on below a file. --/
def notADirectoryCode : UInt32 := 20

/-- The system's code for a name or a path that is too long. --/
def nameTooLongCode : UInt32 := 36

/-- The error of a file in the words of the library. --/
def ioErrorOf : IO.Error → IoError
  | .noFileOrDirectory .. => .notFound
  | .inappropriateType _ code _ => if code = notADirectoryCode then .notADirectory else .isADirectory
  | .invalidArgument _ code details => if code = nameTooLongCode then .nameTooLong else .other details
  | e => .other (toString e)

/-- The result of an effect on a file. --/
def attempt {α : Type} (effect : IO α) : IO (Except IoError α) := do
  try
    return .ok (← effect)
  catch e =>
    return .error (ioErrorOf e)

/-- All bytes of a stream. --/
partial def readAll (stream : IO.FS.Stream) (sofar : List UInt8) : IO (List UInt8) := do
  let chunk ← stream.read 65536
  if chunk.isEmpty then return sofar else readAll stream (sofar ++ chunk.data.toList)

/-- Play a session against the real world. --/
def Session.perform {α : Type} : Session α → IO α
  | .done a => return a
  | .readFile p next => do
    let content ← attempt (IO.FS.readBinFile p)
    (next (content.map fun bytes => bytes.data.toList)).perform
  | .readInput next => do (next (← readAll (← IO.getStdin) [])).perform
  | .writeFile p content next => do (next (← attempt (IO.FS.writeBinFile p content.toByteArray))).perform
  | .print text next => do
    (← IO.getStdout).putStr text
    next.perform
  | .report lines next => do
    lines.forM fun line => do (← IO.getStderr).putStrLn line
    next.perform

/-- The name by which the compiler is called. --/
def compilerName : String := "abnf-compile"

end Abnf.CommandLine

open Abnf Abnf.CommandLine in
def main (args : List String) : IO UInt32 := do
  let name := Path.fileName? (toString (← IO.appPath))
  let session := if name == some compilerName then compilerProgram args else program args
  return UInt32.ofNat (← session.perform)
