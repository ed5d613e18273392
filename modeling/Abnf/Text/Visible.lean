/-! Text as one line of a display. Characters that would move the cursor, ring the bell or turn the direction
    of writing are shown instead of obeyed, so that what is read is what the text holds. -/

namespace Abnf.Visible

/-- The marks that turn the direction of writing or end such a turn: embeddings, overrides and isolates. --/
def turnsDirection (c : Char) : Bool :=
  (0x202A ≤ c.toNat && c.toNat ≤ 0x202E) || (0x2066 ≤ c.toNat && c.toNat ≤ 0x2069)

/-- What is shown for a character. A tab is four blanks, any other control of ASCII is its picture, and the
    joiner that melts neighbours into one sign is dropped. --/
def ofChar (c : Char) : List Char :=
  if c = '\t' then List.replicate 4 ' '
  else if c.toNat < 0x20 then [Char.ofNat (0x2400 + c.toNat)]
  else if c.toNat = 0x7F then ['\u2421']
  else if c.toNat = 0x200D then []
  else if turnsDirection c then ['\uFFFD']
  else [c]

/-- The characters up to the first newline. --/
def firstLine (s : String) : String := String.ofList (s.toList.takeWhile (· != '\n'))

end Abnf.Visible

namespace Abnf

/-- The first line of a text as a display shows it. --/
def visible (s : String) : String := String.ofList ((Visible.firstLine s).toList.flatMap Visible.ofChar)

end Abnf
