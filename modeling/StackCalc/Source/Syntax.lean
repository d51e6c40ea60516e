import StackCalc.Operator
import StackCalc.Text.Span

/-!
# Syntax of programs

A program is a list of statements. Names are located where they were written, which is where
errors about them point.
-/

namespace StackCalc.Source

abbrev Ident := Located String

inductive Expr where
  | number (value : Number)
  | variable (name : Ident)
  | binary (op : BinaryOp) (lhs rhs : Expr)
  | call (callee : Ident) (args : List Expr)

inductive Stmt where
  | define (name : Ident) (params : List Ident) (body : List Stmt)
  | assign (target : Ident) (value : Expr)
  | giveBack (value : Expr) (span : Span)
  | eval (value : Expr)

abbrev Program := List Stmt

/-- There is no negation among the operators: `-x` is read as `0 - x`. -/
def Expr.negate (x : Expr) : Expr := binary .sub (.number .zero) x

end StackCalc.Source
