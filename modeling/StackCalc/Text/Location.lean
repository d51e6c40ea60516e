import StackCalc.Text.Span

/-!
# Line and column

Lines are counted from one by the line feeds before a position, columns from one by the characters
after the last of those.
-/

namespace StackCalc

namespace Text

/-- What follows the last line feed. -/
def lastLine (text : List Char) : List Char := (text.reverse.takeWhile (· != '\n')).reverse

end Text

structure Location where
  line : Nat
  column : Nat
deriving DecidableEq

namespace Location

/-- The location of an offset, that of the nearest character boundary below if it is none. -/
def of (text : List Char) (offset : Nat) : Location :=
  let before := Text.takeBytes offset text
  ⟨before.count '\n' + 1, (Text.lastLine before).length + 1⟩

def text (location : Location) : String := s!"{location.line}:{location.column}"

end Location

end StackCalc
