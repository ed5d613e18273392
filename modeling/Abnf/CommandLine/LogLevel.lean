import Abnf.Text.Blank
import Abnf.Text.Case

/-! How much is logged. Asking for more on the command line counts before a level set outside. -/

namespace Abnf

inductive LogLevel where
  | off | error | warn | info | debug | trace
  deriving DecidableEq, Repr

namespace LogLevel

def name : LogLevel → String
  | off => "OFF"
  | error => "ERROR"
  | warn => "WARN"
  | info => "INFO"
  | debug => "DEBUG"
  | trace => "TRACE"

def all : List LogLevel := [off, error, warn, info, debug, trace]

/-- The level of a name in any letter case. --/
def ofName? (s : String) : Option LogLevel := all.find? fun l => sameName l.name s

/-- A text without the blanks around it. --/
def trimmed (s : String) : String :=
  String.ofList (((s.toList.dropWhile isBlank).reverse.dropWhile isBlank).reverse)

/-- The level for so many requests for more, and a level that may be set outside. --/
def choose (verbosity : Nat) (setting : Option String) : LogLevel :=
  match verbosity with
  | 0 => (setting.bind fun s => ofName? (trimmed s)).getD warn
  | 1 => info
  | 2 => debug
  | _ => trace

end LogLevel
end Abnf
