import StackCalc.Number.Shortest
import StackCalc.Source.Syntax
import StackCalc.Text.Format

/-!
# Programs as text

A program is written as source that can be read again. Binary expressions always stand in
parentheses, so that nothing hangs on precedence, and the bodies of functions are indented.
-/

namespace StackCalc.Source

mutual

def Expr.text : Expr → String
  | .number value => value.text
  | .variable name => name.val
  | .binary op lhs rhs =>
    "(" ++ lhs.text ++ " " ++ String.singleton op.symbol ++ " " ++ rhs.text ++ ")"
  | .call callee args => callee.val ++ "(" ++ String.intercalate ", " (Expr.texts args) ++ ")"

def Expr.texts : List Expr → List String
  | [] => []
  | e :: es => e.text :: Expr.texts es

end

/-- The name and parameters of a definition. -/
def signature (name : Ident) (params : List Ident) : String :=
  name.val ++ "(" ++ String.intercalate ", " (params.map (·.val)) ++ ")"

namespace Printer

def line (depth : Nat) (text : String) : String := Text.indented 4 depth text

mutual

def statement (depth : Nat) : Stmt → List String
  | .define name params body =>
    line depth ("def " ++ signature name params ++ " \x7b") ::
      statements (depth + 1) body ++ [line depth "\x7d"]
  | .assign target value => [line depth (target.val ++ " = " ++ value.text ++ ";")]
  | .giveBack value _ => [line depth ("return " ++ value.text ++ ";")]
  | .eval value => [line depth (value.text ++ ";")]

def statements (depth : Nat) : List Stmt → List String
  | [] => []
  | s :: ss => statement depth s ++ statements depth ss

end

end Printer

def Program.text (program : Program) : String := Text.unlines (Printer.statements 0 program)

end StackCalc.Source
