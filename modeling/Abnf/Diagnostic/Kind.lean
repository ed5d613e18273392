/-! The kinds of fault in a grammar document, and the wording of each. -/

namespace Abnf.Diagnostic

inductive Severity where
  | error | warning
  deriving DecidableEq, Repr, Inhabited

namespace Severity

def name : Severity → String
  | error => "error"
  | warning => "warning"

end Severity

/-- What is wrong with a document. --/
inductive Kind where
  -- brackets left open
  | unclosedGroup | unclosedOption
  -- something is missing
  | expectedRuleName | expectedDefinedAs | expectedElement
  -- something does not belong
  | unterminatedString | unexpectedToken | nestingTooDeep
  -- values
  | invalidNumber | invalidRange | codePointTooLarge | invalidRepeat | proseUnsupported
  -- well-formed text without a meaning
  | duplicateDefinition | baseRuleOverride | incrementalUndefined | undefinedReference
  deriving DecidableEq, Repr, Inhabited

namespace Kind

/-- Every kind is an error unless a diagnostic says otherwise. --/
def severity (_ : Kind) : Severity := .error

/-- Advice that every diagnostic of the kind carries. --/
def hint? : Kind → Option String
  | expectedDefinedAs => some "e.g., `name = element`"
  | nestingTooDeep => some "flatten the groups or raise the recursion limit"
  | proseUnsupported => some "replace the prose with a rule definition"
  | baseRuleOverride => some "rename the rule to keep the base definition"
  | _ => none

/-- The message when there is nothing more to say than the kind. --/
def plain : Kind → String
  | unclosedGroup => "missing closing `)`"
  | unclosedOption => "missing closing `]`"
  | expectedRuleName => "expected a rule name"
  | expectedDefinedAs => "expected `=` or `=/`"
  | expectedElement => "expected an element"
  | unterminatedString => "unterminated string"
  | unexpectedToken => "unexpected token"
  | nestingTooDeep => "groups nested too deeply"
  | invalidNumber => "invalid numeric value"
  | invalidRange => "numeric range is empty"
  | codePointTooLarge => "value exceeds U+10FFFF"
  | invalidRepeat => "repeat minimum exceeds its maximum"
  | proseUnsupported => "prose values are not supported"
  | duplicateDefinition => "duplicate definition"
  | baseRuleOverride => "rule shadows a base rule"
  | incrementalUndefined => "`=/` extends an undefined rule"
  | undefinedReference => "undefined reference"

/-- The message around a detail: what stands before it and after it. --/
def frame : Kind → String × String
  | duplicateDefinition => ("`", "` is already defined")
  | baseRuleOverride => ("`", "` is already defined by the base grammar")
  | incrementalUndefined => ("`", "` must be defined with `=` before `=/`")
  | undefinedReference => ("`", "` is not defined")
  | unclosedGroup => (plain unclosedGroup ++ "; ", "")
  | unclosedOption => (plain unclosedOption ++ "; ", "")
  | k => (k.plain ++ ": ", "")

/-- The message with a detail. --/
def detailed (k : Kind) (detail : String) : String := k.frame.1 ++ detail ++ k.frame.2

end Kind
end Abnf.Diagnostic
