import Abnf.Grammar.Optimize

/-! The core rules of ABNF: letters, digits, blanks, line ends and the like. -/

namespace Abnf

namespace CoreRules

/-- A grammar in the making. --/
abbrev Build := StateM Grammar

def node (n : Node) : Build NodeId := modifyGet (Grammar.addNode n)

def ref (name : String) : Build NodeId := modifyGet (Grammar.addRef name)

def define (name : String) (root : NodeId) : Build Unit := modify fun g => (g.define name root).2

/-- Define a rule by a single node. --/
def defineAs (name : String) (n : Node) : Build Unit := do define name (← node n)

def letters : Build Unit := do
  let capital ← node (.charRange 0x41 0x5A)
  let small ← node (.charRange 0x61 0x7A)
  defineAs "ALPHA" (.choice [capital, small])

def bits : Build Unit := do
  let off ← node (.char 0x30)
  let on ← node (.char 0x31)
  defineAs "BIT" (.choice [off, on])

def lineEnds : Build Unit := do
  defineAs "CR" (.char 0x0D)
  let cr ← ref "CR"
  let lf ← ref "LF"
  defineAs "CRLF" (.sequence [cr, lf])

def controls : Build Unit := do
  let low ← node (.charRange 0x00 0x1F)
  let delete ← node (.char 0x7F)
  defineAs "CTL" (.choice [low, delete])

def hexDigits : Build Unit := do
  let digit ← ref "DIGIT"
  let letters ← ["A", "B", "C", "D", "E", "F"].mapM fun letter => node (.text letter true)
  defineAs "HEXDIG" (.choice (digit :: letters))

/-- Blanks that may run over line ends: `*(WSP / CRLF WSP)`. --/
def linearBlanks : Build Unit := do
  let blank ← ref "WSP"
  let lineEnd ← ref "CRLF"
  let indent ← ref "WSP"
  let folded ← node (.sequence [lineEnd, indent])
  let unit ← node (.choice [blank, folded])
  let group ← node (.fold unit)
  defineAs "LWSP" (.repetition group 0 none)

def blanks : Build Unit := do
  let space ← ref "SP"
  let tab ← ref "HTAB"
  defineAs "WSP" (.choice [space, tab])

def all : Build Unit := do
  letters
  bits
  defineAs "CHAR" (.charRange 0x01 0x7F)
  lineEnds
  controls
  defineAs "DIGIT" (.charRange 0x30 0x39)
  defineAs "DQUOTE" (.char 0x22)
  hexDigits
  defineAs "HTAB" (.char 0x09)
  defineAs "LF" (.char 0x0A)
  linearBlanks
  defineAs "OCTET" (.charRange 0x00 0xFF)
  defineAs "SP" (.char 0x20)
  defineAs "VCHAR" (.charRange 0x21 0x7E)
  blanks

end CoreRules

/-- The grammar that holds just the core rules. --/
def coreRules : Grammar := (CoreRules.all.run (.empty "core")).2.optimize

end Abnf
