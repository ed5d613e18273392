import Abnf.Binary.Decode
import Abnf.Files.Tree

/-! Saving grammars to files and reading them back. -/

namespace Abnf.Library

/-- The files after a grammar has been saved at a path. --/
def save (files : FileTree) (p : Path) (g : Grammar) : Except BinaryError FileTree := do
  let content ← Binary.encode g
  (files.write p content).mapError .io

/-- The grammar that was saved at a path. --/
def readSaved (files : FileTree) (p : Path) : Except BinaryError Grammar := do
  let content ← (files.read p).mapError .io
  Binary.decode content

end Abnf.Library
