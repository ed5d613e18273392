import Abnf.Document.Parser
import Abnf.Grammar.Basic

/-! What a caller can choose when a document is compiled. -/

namespace Abnf

/-- How a document is to be compiled. --/
structure CompileOptions where
  /-- The name of the grammar. --/
  name : String := "grammar"
  /-- The grammar that defines what the document leaves undefined. --/
  base : Option Grammar := none
  /-- Whether a rule may not be defined again that the base defines. --/
  rejectBaseOverrides : Bool := false
  /-- Whether names may stay without a definition. --/
  allowIncomplete : Bool := false
  /-- How deep brackets may nest. --/
  nestingLimit : Nat := defaultNestingLimit

namespace CompileOptions

/-- Whether the base defines a name. --/
def baseDefines (o : CompileOptions) (name : String) : Bool := o.base.any (·.defines name)

end CompileOptions

end Abnf
