import StackCalc.Code.Operation
import StackCalc.Text.Format

/-!
# Lines of assembly

Assembly is written one item a line, a label or a command, indented by the depth of the function
that it belongs to. A command has an operand exactly where its kind asks for one: a name for jumps,
calls and variables, a number for pushing and interrupts.
-/

namespace StackCalc.Assembly

/-- An operation as it is written: targets and variables by name, interrupts by number. -/
abbrev Command := Operation String String Number

def Command.text (command : Command) : String := command.textWith id id Number.text

inductive Item where
  | label (name : String)
  | command (command : Command)
deriving DecidableEq

def Item.text : Item → String
  | label name => name ++ ":"
  | command c => c.text

inductive Line where
  | blank
  | item (depth : Nat) (item : Item)
deriving DecidableEq

namespace Line

def text : Line → String
  | blank => ""
  | item depth i => Text.indented 4 depth i.text

def commands (depth : Nat) (cs : List Command) : List Line :=
  cs.map fun c => item depth (.command c)

end Line

end StackCalc.Assembly
