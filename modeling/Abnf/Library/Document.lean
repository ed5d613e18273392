import Abnf.Compile
import Abnf.Files.Tree

/-! Compiling documents that stand in files. The grammar takes its name from the path. -/

namespace Abnf

/-- Why a document gives no grammar. --/
inductive DocumentError where
  | invalid (diagnostics : List Diagnostic)
  | unreadable (path : Path) (cause : IoError)

namespace DocumentError

def message : DocumentError → String
  | invalid ds => Diagnostic.summary ds
  | unreadable path cause => s!"cannot read `{path}`: {cause.message}"

end DocumentError

namespace Library

/-- The name of the grammar in a file. --/
def grammarName (p : Path) : String := (Path.stem? p).getD "grammar"

/-- Compile the text of a document. --/
def compileText (source : String) (o : CompileOptions) : Except DocumentError Compilation :=
  (compile source o).mapError .invalid

/-- Compile the document in a file. --/
def compileFile (files : FileTree) (p : Path) (base : Option Grammar) : Except DocumentError Compilation := do
  let source ← (files.readText p).mapError (.unreadable p)
  compileText source { name := grammarName p, base }

end Library
end Abnf
