import Abnf.CommandLine.Draft

/-! The commands: which operands and options each of them takes, and how a command line is read as a request
    for one of them. -/

namespace Abnf.CommandLine

inductive Command where
  | compile | check | dump | parse
  deriving DecidableEq, Repr

namespace Command

def name : Command → String
  | compile => "compile"
  | check => "check"
  | dump => "dump"
  | parse => "parse"

def all : List Command := [compile, check, dump, parse]

def ofName? (s : String) : Option Command := all.find? fun c => c.name == s

def helpOption : OptionSpec Draft := ⟨"help", some 'h', .help⟩

def verboseOption : OptionSpec Draft := ⟨"verbose", some 'v', .switch Draft.countVerbose⟩

def colorOption : OptionSpec Draft := ⟨"color", none, .valued Draft.setColor⟩

def switchOption (long : String) (s : Switch) : OptionSpec Draft := ⟨long, none, .switch (Draft.turn s)⟩

/-- The options that a command has besides those that all have. --/
def ownOptions : Command → List (OptionSpec Draft)
  | compile => [switchOption "allow-incomplete" .allowIncomplete, switchOption "reject-overrides" .rejectOverrides]
  | check => [switchOption "strict" .strict, switchOption "allow-incomplete" .allowIncomplete,
      switchOption "reject-overrides" .rejectOverrides]
  | dump => []
  | parse => [⟨"source", some 's', .valued Draft.setText⟩, switchOption "json" .json,
      ⟨"observe", none, .valued Draft.addObserved⟩, switchOption "trace" .trace, switchOption "full" .full]

def operands : Command → List (String → Change Draft)
  | compile => [Draft.addPath, Draft.addPath]
  | check | dump => [Draft.addPath]
  | parse => [Draft.addPath, Draft.addWord, Draft.addPath]

def spec (c : Command) : WordSpec Draft :=
  ⟨c.ownOptions ++ [colorOption, verboseOption, helpOption], c.operands⟩

/-- The input that the command line gives; a lone dash and nothing at all stand for the standard input. --/
def inputOf (text : Option String) (path : Option Path) : InputSource :=
  match text, path with
  | some t, _ => .text t
  | none, some p => if p == "-" then .standardInput else .file p
  | none, none => .standardInput

def parseRequest (d : Draft) (grammar : Path) (rule : String) (path : Option Path) : Request :=
  .parse { grammar, rule, input := inputOf d.text path, json := d.has .json, observe := d.observe,
           trace := d.has .trace, full := d.has .full, color := d.colorChoice }

/-- What a command is asked for by all that has been read. --/
def request (c : Command) (d : Draft) : Except UsageError Request :=
  match c, d.operands with
  | compile, [document, out] => .ok (.compile ⟨document, out, d.compiling⟩)
  | check, [document] => .ok (.check ⟨document, d.has .strict, d.compiling⟩)
  | dump, [grammar] => .ok (.dump ⟨grammar, d.colorChoice⟩)
  | parse, [grammar, rule] => .ok (parseRequest d grammar rule none)
  | parse, [grammar, rule, path] =>
    if d.text.isSome then .error .conflict else .ok (parseRequest d grammar rule (some path))
  | _, _ => .error .missingOperand

end Command

/-! ### Command lines -/

/-- What may stand before the command. --/
def leadingSpec : WordSpec Draft := ⟨[Command.verboseOption, Command.helpOption], []⟩

/-- Whether a word calls a command, the one for help included. --/
def isCommandName (w : String) : Bool := w == "help" || (Command.ofName? w).isSome

/-- The answer to a request for help, which can name one command. --/
def helpFor : List String → UsageError
  | [] => .helpRequested
  | [w] => if isCommandName w then .helpRequested else .unknownCommand
  | _ => .unknownCommand

/-- Read the words from the command on. What they say of logging counts before `leading`. --/
def readCommand (leading : Option Nat) : List String → Except UsageError Invocation
  | [] => .error (if leading.isSome then .missingCommand else .nothingAsked)
  | w :: ws =>
    match Argument.ofWord w, Command.ofName? w with
    | .escape, _ =>
      match ws with
      | [] => .error (if leading.isSome then .missingCommand else .nothingAsked)
      | w :: _ => .error (if isCommandName w then .unknownArgument else .unknownCommand)
    | _, some c => do
      let d ← c.spec.read ws {}
      return ⟨← c.request d, (d.verbosity.or leading).getD 0⟩
    | _, none => .error (if w == "help" then helpFor ws else .unknownCommand)

/-- Read the words of a command line, the name of the program left out. --/
def Invocation.ofWords (words : List String) : Except UsageError Invocation := do
  let d ← leadingSpec.read (words.takeWhile Argument.isOption) {}
  readCommand d.verbosity (words.dropWhile Argument.isOption)

/-- How the program is used. --/
def programUsage : String :=
  "usage:\n" ++
  "  compile <ABNF> <OUT> [--allow-incomplete] [--reject-overrides] [--color <WHEN>]\n" ++
  "  check <ABNF> [--strict] [--allow-incomplete] [--reject-overrides] [--color <WHEN>]\n" ++
  "  dump <GRAMMAR> [--color <WHEN>]\n" ++
  "  parse <GRAMMAR> <RULE> [<FILE> | -s <TEXT>] [--json] [--observe <RULES>] [--trace] [--full] [--color <WHEN>]\n"

/-! ### The compiler on its own -/

/-- How the compiler on its own is used. --/
def compilerUsage : String := "usage:\n  <ABNF> <OUT>\n"

/-- What the compiler takes on its own: a document and the path of the file to write. --/
def compilerSpec : WordSpec Draft := ⟨[Command.helpOption], [Draft.addPath, Draft.addPath]⟩

/-- Read the words of a command line of the compiler. --/
def CompileRequest.ofWords (words : List String) : Except UsageError CompileRequest := do
  let d ← compilerSpec.read words {}
  match d.operands with
  | [document, out] => return ⟨document, out, {}⟩
  | _ => .error .missingOperand

end Abnf.CommandLine
