import Abnf.Match.Element
import Abnf.Text.Byte

/-! Elements as JSON: each an object of its rule, its text and its children, two blanks deeper than what
    holds it. -/

namespace Abnf.Json

/-- A control character by its number, in four small hexadecimal digits. --/
def controlEscape (c : Char) : String :=
  let ds := (Hex.digits c.toNat).map Char.toLower
  "\\u" ++ String.ofList (List.replicate (4 - ds.length) '0' ++ ds)

/-- A character inside quotes. Only quotes, backslashes and control characters need an escape. --/
def escaped (c : Char) : String :=
  if c == '"' then "\\\""
  else if c == '\\' then "\\\\"
  else if c == '\x08' then "\\b"
  else if c == '\x0C' then "\\f"
  else if c == '\n' then "\\n"
  else if c == '\r' then "\\r"
  else if c == '\t' then "\\t"
  else if c.toNat < 0x20 then controlEscape c
  else c.toString

def quoted (s : String) : String := "\"" ++ String.join (s.toList.map escaped) ++ "\""

def indent (depth : Nat) : String := String.ofList (List.replicate (2 * depth) ' ')

mutual

/-- An element at a depth, without an indent before it. --/
def ofElement (depth : Nat) : Element → String
  | .of rule value children =>
    let line (key text : String) : String := indent (depth + 1) ++ quoted key ++ ": " ++ text
    let items := if children.isEmpty then "[]"
      else "[\n" ++ ofElements (depth + 2) children ++ "\n" ++ indent (depth + 1) ++ "]"
    "\x7b\n" ++ line "rule" (quoted rule) ++ ",\n" ++ line "value" (quoted value) ++ ",\n" ++
      line "children" items ++ "\n" ++ indent depth ++ "\x7d"

/-- Elements at a depth, each on lines of its own. --/
def ofElements (depth : Nat) : List Element → String
  | [] => ""
  | e :: es =>
    indent depth ++ ofElement depth e ++ (if es.isEmpty then "" else ",\n" ++ ofElements depth es)

end

end Abnf.Json
