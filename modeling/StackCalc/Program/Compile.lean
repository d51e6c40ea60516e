import StackCalc.Assembly.Line
import StackCalc.Program.Check
import StackCalc.Program.Scopes
import StackCalc.Source.Syntax

/-!
# Compilation

A program becomes the lines of an assembly unit. Operands are evaluated from right to left, so
that the left one is on top, and arguments from left to right, so that parameters are bound from
the last to the first. A function stands where it is defined, behind a jump over it; on every way
out it takes the bindings of its frame away again.
-/

namespace StackCalc

namespace Compile

open Assembly Source

def callee (scopes : Scopes) (name : Ident) (count : Nat) : Checked (Callee FunctionEntry) :=
  Callee.resolve (scopes.findFunction? name.val) (·.arity) name count

def printCommand : Command := .interrupt .zero

mutual

/-- The commands that leave the value of an expression on the stack. -/
def expression (scopes : Scopes) : Expr → Checked (List Command)
  | .number value => .ok [.push value]
  | .variable name =>
    match scopes.findVariable? name.val with
    | some x => .ok [.get x.qualified]
    | none => refuse (.unboundVariable name.val) name.span
  | .binary op lhs rhs => do
    let right ← expression scopes rhs
    let left ← expression scopes lhs
    return right ++ left ++ [.arith op]
  | .call name args => do
    match ← callee scopes name args.length with
    | .print => refuse .printHasNoValue name.span
    | .function f => return (← arguments scopes args) ++ [.call f.id.qualified]

def arguments (scopes : Scopes) : List Expr → Checked (List Command)
  | [] => .ok []
  | arg :: args => do
    let first ← expression scopes arg
    return first ++ (← arguments scopes args)

end

/-- A call on its own may be one of `print`; any other leaves a value to be dropped. -/
def effect (scopes : Scopes) : Expr → Checked (List Command)
  | .call name args => do
    match ← callee scopes name args.length with
    | .print => return (← arguments scopes args) ++ [printCommand]
    | .function f => return (← arguments scopes args) ++ [.call f.id.qualified, .pop]
  | value => do return (← expression scopes value) ++ [.pop]

/-- Takes away the bindings of the innermost scope and returns. -/
def leave (scopes : Scopes) : List Command :=
  scopes.frameBindings.map (fun x => .unset x.qualified) ++ [.ret]

def bindParams (scopes : Scopes) : List Ident → List Command × Scopes
  | [] => ([], scopes)
  | param :: params =>
    let (x, scopes) := scopes.bind param.val
    let (rest, scopes) := bindParams scopes params
    (.set x.qualified :: rest, scopes)

def endLabel (f : ScopedName) : String := "@" ++ f.qualified ++ "_end@"

/-- A body whose last statement is no return gets one of zero. -/
def fallsThrough (body : List Stmt) : Bool :=
  match body.getLast? with
  | some (.giveBack _ _) => false
  | _ => true

mutual

def statement (scopes : Scopes) : Stmt → Checked (List Line × Scopes)
  | .define name params body => do
    checkParams params
    match scopes.enter? name.val params.length with
    | none => refuse (.duplicateFunction name.val) name.span
    | some (f, inner) =>
      let (entry, inner) := bindParams inner params.reverse
      let (lines, inner) ← statements inner body
      let leaving := (if fallsThrough body then [.push .zero] else []) ++ leave inner
      let depth := scopes.depth
      let outer := (inner.exit?.map (·.2)).getD inner
      let opening := [.blank, .item depth (.command (.jump (endLabel f))),
        .item depth (.label f.qualified)]
      let closing := [.item depth (.label (endLabel f)), .blank]
      return (opening ++ Line.commands (depth + 1) entry ++ lines ++
        Line.commands (depth + 1) leaving ++ closing, outer)
  | .assign target value => do
    let commands ← expression scopes value
    let (x, scopes) := scopes.bind target.val
    return (Line.commands scopes.depth (commands ++ [.set x.qualified]), scopes)
  | .giveBack value span => do
    if scopes.depth = 0 then refuse .returnOutsideFunction span
    let commands ← expression scopes value
    return (Line.commands scopes.depth (commands ++ leave scopes), scopes)
  | .eval value => do
    let commands ← effect scopes value
    return (Line.commands scopes.depth commands, scopes)

def statements (scopes : Scopes) : List Stmt → Checked (List Line × Scopes)
  | [] => .ok ([], scopes)
  | s :: ss => do
    let (first, scopes) ← statement scopes s
    let (rest, scopes) ← statements scopes ss
    return (first ++ rest, scopes)

end

end Compile

def Source.Program.compile (program : Source.Program) : Checked (List Assembly.Line) := do
  return (← Compile.statements .empty program).1

/-- The assembly of a program. -/
def Source.Program.assembly (program : Source.Program) : Checked String := do
  return Text.unlines ((← program.compile).map (·.text))

end StackCalc
