import Abnf.Text.Number

/-! Reading the words of a command line. Words that begin with a dash are options, which go by name; all
    others are operands, which go by place. After a word of two dashes there are only operands. A word
    is taken up when the next one comes, so of two faults the later can be told first. -/

namespace Abnf.CommandLine

/-- What is wrong with the words of a command line. --/
inductive UsageError where
  | missingOperand
  | unknownArgument
  | invalidValue
  /-- A value is joined to an option that takes none. --/
  | unexpectedValue
  /-- Two arguments exclude each other, or one that may come once comes again. --/
  | conflict
  | unknownCommand
  | missingCommand
  /-- There are no words at all. --/
  | nothingAsked
  | helpRequested
  deriving DecidableEq, Repr

namespace UsageError

def message : UsageError → String
  | missingOperand => "an operand is missing"
  | unknownArgument => "an argument is not known"
  | invalidValue => "an argument has no value or one that it cannot have"
  | unexpectedValue => "an option has a value that takes none"
  | conflict => "two arguments cannot be used together"
  | unknownCommand => "the command is not known"
  | missingCommand => "a command is missing"
  | nothingAsked => "nothing is asked for"
  | helpRequested => "help is asked for"

end UsageError

variable {δ : Type}

/-- What a word does to what has been read so far. --/
abbrev Change (δ : Type) := δ → Except UsageError δ

/-- What an option asks of the words and what it does. --/
inductive OptionForm (δ : Type) where
  | switch (change : Change δ)
  | valued (change : String → Change δ)
  | help

structure OptionSpec (δ : Type) where
  long : String
  short : Option Char
  form : OptionForm δ

/-- What a command line may consist of. --/
structure WordSpec (δ : Type) where
  options : List (OptionSpec δ)
  /-- What to do with the operands, the first with the first. --/
  operands : List (String → Change δ)

namespace WordSpec

def long? (s : WordSpec δ) (name : String) : Option (OptionForm δ) :=
  (s.options.find? fun o => o.long == name).map OptionSpec.form

def short? (s : WordSpec δ) (c : Char) : Option (OptionForm δ) :=
  (s.options.find? fun o => o.short == some c).map OptionSpec.form

end WordSpec

/-! ### Words -/

inductive Argument where
  /-- All words from here on are operands. --/
  | escape
  | long (name : String) (value : Option String)
  | shorts (names : List Char)
  | plain
  deriving DecidableEq, Repr

namespace Argument

/-- The name of a long option, and the value that an equals sign joins to it. --/
def ofLong (cs : List Char) : Argument :=
  let name := cs.takeWhile (· != '=')
  match cs.drop name.length with
  | _ :: value => long (String.ofList name) (some (String.ofList value))
  | [] => long (String.ofList name) none

/-- What a word looks like. A lone dash is no option. --/
def ofWord (w : String) : Argument :=
  match w.toList with
  | ['-', '-'] => escape
  | '-' :: '-' :: cs => ofLong cs
  | '-' :: c :: cs => shorts (c :: cs)
  | _ => plain

/-- Whether a word looks like an option. --/
def isOption (w : String) : Bool :=
  match ofWord w with
  | long .. | shorts _ => true
  | escape | plain => false

end Argument

/-! ### Reading -/

/-- What has been read and not yet taken up. --/
inductive Pending (δ : Type) where
  | nothing
  /-- An option whose value is to come. --/
  | awaiting (change : String → Change δ)
  | ready (change : Change δ)

/-- Take up what is pending. --/
def Pending.resolve : Pending δ → Change δ
  | nothing, d => .ok d
  | awaiting _, _ => .error .invalidValue
  | ready change, d => change d

/-- The value that follows the name of a short option in its word. --/
def attached? : List Char → Option String
  | [] => none
  | '=' :: cs => some (String.ofList cs)
  | c :: cs => some (String.ofList (c :: cs))

/-- Read the short options of one word. --/
def readShorts (s : WordSpec δ) : List Char → Pending δ → δ → Except UsageError (Pending δ × δ)
  | [], p, d => .ok (p, d)
  | c :: cs, p, d =>
    match s.short? c with
    | none => .error .unknownArgument
    | some (.switch change) => do
      let d ← p.resolve d
      readShorts s cs .nothing (← change d)
    | some .help => do
      let _ ← p.resolve d
      .error .helpRequested
    | some (.valued change) => do
      let d ← p.resolve d
      match attached? cs with
      | some value => return (.nothing, ← change value d)
      | none => return (.awaiting change, d)

/-- Read a long option. --/
def readLong (s : WordSpec δ) (name : String) (value : Option String) (p : Pending δ) (d : δ) :
    Except UsageError (Pending δ × δ) :=
  match s.long? name, value with
  | none, _ => .error .unknownArgument
  | some (.valued change), some value => do
    let d ← p.resolve d
    return (.nothing, ← change value d)
  | some (.valued change), none => do return (.awaiting change, ← p.resolve d)
  | some (.switch _), some _ | some .help, some _ => .error .unexpectedValue
  | some (.switch change), none => do
    let d ← p.resolve d
    return (.nothing, ← change d)
  | some .help, none => do
    let _ ← p.resolve d
    .error .helpRequested

/-- Read words that are all operands. --/
def readOperands : List (String → Change δ) → List String → Pending δ → Change δ
  | _, [], p, d => p.resolve d
  | [], _ :: _, _, _ => .error .unknownArgument
  | operand :: operands, w :: ws, p, d => do readOperands operands ws (.ready (operand w)) (← p.resolve d)

/-- Read words, with `operands` for those that are to come. --/
def readWords (s : WordSpec δ) (operands : List (String → Change δ)) : List String → Pending δ → Change δ
  | [], p, d => p.resolve d
  | w :: ws, p, d =>
    match Argument.ofWord w with
    | .escape => readOperands operands ws p d
    | .long name value => do
      let (p, d) ← readLong s name value p d
      readWords s operands ws p d
    | .shorts names => do
      let (p, d) ← readShorts s names p d
      readWords s operands ws p d
    | .plain =>
      match p, operands with
      | .awaiting change, _ => readWords s operands ws (.ready (change w)) d
      | _, [] => .error .unknownArgument
      | p, operand :: operands => do readWords s operands ws (.ready (operand w)) (← p.resolve d)

/-- Read all words of a command line. --/
def WordSpec.read (s : WordSpec δ) (words : List String) : Change δ := readWords s s.operands words .nothing

end Abnf.CommandLine
