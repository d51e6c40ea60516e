/-!
# Blanks, lines and digits

What the texts of both languages are laid out with: the blanks between tokens, lines indented by
their depth, and hexadecimal numbers filled up with zeros.
-/

namespace StackCalc.Text

/-- Space, tab, carriage return, line feed and form feed. -/
def isBlank (c : Char) : Bool := c = ' ' || c = '\t' || c = '\r' || c = '\n' || c = '\x0c'

/-- A line behind `depth` indents of some width. -/
def indented (width depth : Nat) (line : String) : String :=
  String.ofList (List.replicate (width * depth) ' ') ++ line

def unlines (lines : List String) : String := String.join (lines.map (· ++ "\n"))

/-- Lowercase digits, at least `width` of them. -/
def hex (width n : Nat) : String := String.ofList ((Nat.toDigits 16 n).leftpad width '0')

/-- An offset or address, at least four digits after `0x`. -/
def address (n : Nat) : String := "0x" ++ hex 4 n

/-- A name's hash, standing for a name that is not known. -/
def hashName (hash : UInt64) : String := "#" ++ hex 16 hash.toNat

end StackCalc.Text
