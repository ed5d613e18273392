import Abnf.Compile.NumVal
import Abnf.Compile.Options
import Abnf.Compile.Repeat
import Abnf.Grammar.Include

/-! From the typed view of a document to a grammar. The rules are taken one after the other; a fault does not
    stop the work, so that one run tells of all of them, and the grammar of a faulty document is thrown
    away. Rules of a base grammar are added for all names that the document does not define; a document may
    also add alternatives to a rule of the base. -/

namespace Abnf

namespace Assembly

/-- Alternatives that wait for the base to be included. --/
structure Extension where
  name : Word
  node : NodeId

structure State where
  grammar : Grammar
  diagnostics : List Diagnostic
  /-- The names defined by the document, where they were first defined. --/
  definitions : List Word
  /-- The names referred to, where they were first referred to. --/
  references : List Word
  extensions : List Extension
  /-- The node for blanks around commas, once a list has needed it. --/
  blanks : Option NodeId

namespace State

def add (s : State) (n : Node) : NodeId × State :=
  let (i, grammar) := s.grammar.addNode n
  (i, { s with grammar })

def tell (s : State) (d : Diagnostic) : State := { s with diagnostics := s.diagnostics ++ [d] }

/-- What stands for an expression that is missing or faulty. --/
def placeholder (s : State) : NodeId × State := s.add .empty

end State

/-- The first word in a list that spells a name. --/
def lookup (words : List Word) (name : String) : Option Word := words.find? fun w => sameName w.text name

/-! ### Expressions -/

/-- A reference to a rule. --/
def reference (name : Word) (s : State) : NodeId × State :=
  let references := if (lookup s.references name.text).isSome then s.references else s.references ++ [name]
  let (i, grammar) := s.grammar.addRef name.text
  (i, { s with grammar, references })

/-- The text between the quotes of a string, and whether it is written as case-sensitive. --/
def unquote (text : String) : List Char × Bool :=
  match text.toList with
  | '%' :: mark :: quoted => (quoted.tail.dropLast, mark == 's' || mark == 'S')
  | quoted => (quoted.tail.dropLast, false)

def string (w : Word) (s : State) : NodeId × State :=
  let (content, caseSensitive) := unquote w.text
  s.add (.text (String.ofList content) (!caseSensitive))

def numeric (w : Word) (s : State) : NodeId × State :=
  match NumVal.node w.text with
  | .ok n => s.add n
  | .error kind => (s.tell ((Diagnostic.of kind w.span).detailed s!"`{w.text}`")).placeholder

def prose (w : Word) (s : State) : NodeId × State :=
  (s.tell ((Diagnostic.of .proseUnsupported w.span).detailed s!"`{w.text}`")).placeholder

/-- The blanks that may stand around a comma: `*( SP / HTAB )`, one node for all lists. --/
def blanks (s : State) : NodeId × State :=
  match s.blanks with
  | some i => (i, s)
  | none =>
    let (space, s) := s.add (.char 0x20)
    let (tab, s) := s.add (.char 0x09)
    let (either, s) := s.add (.choice [space, tab])
    let (i, s) := s.add (.repetition either 0 none)
    (i, { s with blanks := some i })

/-- A list: an element, then commas with an element each. All of it may be missing if the bounds allow
    no element. --/
def listOf (element : NodeId) (b : Repeat.Bounds) (s : State) : NodeId × State :=
  if b.max = some 0 then s.add .empty
  else
    let (blanks, s) := blanks s
    let (comma, s) := s.add (.text "," true)
    let (unit, s) := s.add (.sequence [blanks, comma, blanks, element])
    let (unit, s) := s.add (.fold unit)
    let (tail, s) := s.add (.repetition unit (if b.min = 0 then 0 else b.min - 1) (b.max.map (· - 1)))
    let (whole, s) := s.add (.sequence [element, tail])
    if b.min = 0 then s.add (.optional whole) else (whole, s)

/-- An element under a repeat. --/
def repeated (element : NodeId) (count : Option Repeat) (s : State) : NodeId × State :=
  match count with
  | none => (element, s)
  | some r =>
    match r.bounds with
    | .error d => (element, s.tell d)
    | .ok b =>
      if r.op = .list then listOf element b s
      else if b = ⟨1, some 1⟩ then (element, s)
      else s.add (.repetition element b.min b.max)

/-- Whether an expression stays bracketed inside a group. --/
def keepsBrackets : Expr → Bool
  | .alternation .. | .concatenation .. => true
  | _ => false

mutual

def expr : Expr → State → NodeId × State
  | .alternation _ es, s =>
    match exprs es s with
    | ([i], s) => (i, s)
    | (is, s) => s.add (.choice is)
  | .concatenation _ es, s =>
    match exprs es s with
    | ([i], s) => (i, s)
    | (is, s) => s.add (.sequence is)
  | .repetition _ _ none, s => s.placeholder
  | .repetition _ count (some e), s =>
    let (i, s) := expr e s
    repeated i count s
  | .ref w, s => reference w s
  | .str w, s => string w s
  | .num w, s => numeric w s
  | .prose w, s => prose w s
  | .group _ none, s => s.placeholder
  | .group _ (some e), s =>
    let (i, s) := expr e s
    if keepsBrackets e then s.add (.fold i) else (i, s)
  | .optional _ none, s =>
    let (i, s) := s.placeholder
    s.add (.optional i)
  | .optional _ (some e), s =>
    let (i, s) := expr e s
    s.add (.optional i)

/-- Expressions from left to right. --/
def exprs : List Expr → State → List NodeId × State
  | [], s => ([], s)
  | e :: es, s =>
    let (i, s) := expr e s
    let (is, s) := exprs es s
    (i :: is, s)

end

/-! ### Rules -/

def incrementalUndefined (name : Word) (s : State) : State :=
  s.tell ((Diagnostic.of .incrementalUndefined name.span).detailed name.text)

/-- Add alternatives to a rule of the document, or note them for a rule of the base. --/
def extend (o : CompileOptions) (name : Word) (body : NodeId) (s : State) : State :=
  if (lookup s.definitions name.text).isSome then
    match s.grammar.extend name.text body with
    | .ok (_, grammar) => { s with grammar }
    | .error _ => incrementalUndefined name s
  else if o.baseDefines name.text then { s with extensions := s.extensions ++ [⟨name, body⟩] }
  else incrementalUndefined name s

/-- Define a rule, which the document may do once. --/
def define (o : CompileOptions) (name : Word) (sign : DefinedAs) (body : NodeId) (s : State) : State :=
  match lookup s.definitions name.text with
  | some first =>
    s.tell ((((Diagnostic.of .duplicateDefinition sign.word.span).detailed name.text).relatedTo
      "first defined here" first.span).withFix "use `=/` to add alternatives" "=/")
  | none =>
    let s := if o.rejectBaseOverrides && o.baseDefines name.text then
      s.tell ((Diagnostic.of .baseRuleOverride name.span).detailed name.text) else s
    { s with grammar := (s.grammar.define name.text body).2, definitions := s.definitions ++ [name] }

/-- A rule of the document. The nodes of the body are made whatever becomes of the rule. --/
def definition (o : CompileOptions) (s : State) (d : Definition) : State :=
  match d.name, d.definedAs, d.body with
  | some name, some sign, some body =>
    let (i, s) := expr body s
    if sign.incremental then extend o name i s else define o name sign i s
  | _, _, _ => s

/-! ### Documents -/

/-- Add the alternatives that waited for the base. A definition that came after them does not count:
    alternatives follow the definition that they add to. --/
def extendBase (s : State) (e : Extension) : State :=
  if (lookup s.definitions e.name.text).isSome then incrementalUndefined e.name s
  else
    match s.grammar.extend e.name.text e.node with
    | .ok (_, grammar) => { s with grammar }
    | .error _ => incrementalUndefined e.name s

/-- Tell of a name without a definition, at its first reference, if the document refers to it. --/
def checkReference (o : CompileOptions) (s : State) (name : String) : State :=
  match lookup s.references name with
  | none => s
  | some w =>
    let severity : Diagnostic.Severity := if o.allowIncomplete then .warning else .error
    s.tell (((Diagnostic.of .undefinedReference w.span).detailed name).withSeverity severity)

/-- The state in which all names of the document have their places, in the order of the document. --/
def initial (o : CompileOptions) (ds : List Definition) : State :=
  let names := ds.filterMap fun d => d.name.map Word.text
  { grammar := (Grammar.empty o.name).declareAll names, diagnostics := [], definitions := [],
    references := [], extensions := [], blanks := none }

/-- The grammar of a document, and what is wrong with the document. --/
def document (o : CompileOptions) (ds : List Definition) : Grammar × List Diagnostic :=
  let s := ds.foldl (definition o) (initial o ds)
  let s := match o.base with
    | some base => { s with grammar := s.grammar.includeBase base }
    | none => s
  let s := s.extensions.foldl extendBase s
  let s := s.grammar.undefinedNames.foldl (checkReference o) s
  (s.grammar, s.diagnostics)

end Assembly
end Abnf
