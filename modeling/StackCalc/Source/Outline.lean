import StackCalc.Source.Printer

/-!
# Outlines of programs

An outline shows the tree of a program, one node a line, children indented under their parent.
-/

namespace StackCalc.Source.Outline

def line (depth : Nat) (text : String) : String := Text.indented 2 depth text

mutual

def expression (depth : Nat) : Expr → List String
  | .number value => [line depth ("Number " ++ value.text)]
  | .variable name => [line depth ("Var " ++ name.val)]
  | .binary op lhs rhs =>
    line depth ("Binary " ++ String.singleton op.symbol) ::
      expression (depth + 1) lhs ++ expression (depth + 1) rhs
  | .call callee args => line depth ("Call " ++ callee.val) :: expressions (depth + 1) args

def expressions (depth : Nat) : List Expr → List String
  | [] => []
  | e :: es => expression depth e ++ expressions depth es

end

mutual

def statement (depth : Nat) : Stmt → List String
  | .define name params body =>
    line depth ("Def " ++ signature name params) :: statements (depth + 1) body
  | .assign target value => line depth ("Assign " ++ target.val) :: expression (depth + 1) value
  | .giveBack value _ => line depth "Return" :: expression (depth + 1) value
  | .eval value => line depth "Expr" :: expression (depth + 1) value

def statements (depth : Nat) : List Stmt → List String
  | [] => []
  | s :: ss => statement depth s ++ statements depth ss

end

end Outline

def Program.outline (program : Program) : String := Text.unlines (Outline.statements 0 program)

end StackCalc.Source
