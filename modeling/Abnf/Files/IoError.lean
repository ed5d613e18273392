import Abnf.Text.Utf8

/-! What goes wrong with files, in the words of the system. -/

namespace Abnf

inductive IoError where
  | notFound
  | notADirectory
  | isADirectory
  /-- A name, or the whole path, is longer than the system allows. --/
  | nameTooLong
  /-- A path holds the character that would end it. --/
  | nulInPath
  /-- The content was to be text and is not. --/
  | notText
  /-- The content was to be text and stops being it at a known place. --/
  | fault (f : Utf8.Fault)
  /-- Anything else, as the system tells it. --/
  | other (text : String)
  deriving DecidableEq, Repr

namespace IoError

def message : IoError → String
  | notFound => "No such file or directory (os error 2)"
  | notADirectory => "Not a directory (os error 20)"
  | isADirectory => "Is a directory (os error 21)"
  | nameTooLong => "File name too long (os error 36)"
  | nulInPath => "file name contained an unexpected NUL byte"
  | notText => "stream did not contain valid UTF-8"
  | fault f => f.message
  | other text => text

end IoError
end Abnf
