import StackCalc.Program.CompileError
import StackCalc.Source.Syntax

/-!
# Checks

What compiling and evaluating both ask of a definition and of a call. A call leads to the function
that its name means, or to printing, which is built in and goes by a name that a function may
take; either way it is checked for the number of its arguments.
-/

namespace StackCalc

/-- The first parameter that repeats one before it. -/
def repeated? : (seen : List String) → List Source.Ident → Option Source.Ident
  | _, [] => none
  | seen, param :: params =>
    if param.val ∈ seen then some param else repeated? (param.val :: seen) params

def checkParams (params : List Source.Ident) : Checked Unit :=
  match repeated? [] params with
  | some param => refuse (.duplicateParameter param.val) param.span
  | none => .ok ()

inductive Callee (α : Type) where
  | function (f : α)
  | print

namespace Callee

variable {α : Type}

/-- The callee and the number of its arguments. -/
def ofName? (found : Option α) (arity : α → Nat) (name : String) : Option (Callee α × Nat) :=
  match found with
  | some f => some (function f, arity f)
  | none => if name = printName then some (print, 1) else none

/-- Checks a call as far as its arguments do not matter. -/
def resolve (found : Option α) (arity : α → Nat) (name : Source.Ident) (count : Nat) :
    Checked (Callee α) :=
  match ofName? found arity name.val with
  | none => refuse (.unknownFunction name.val) name.span
  | some (callee, expected) =>
    if count = expected then .ok callee
    else refuse (.arityMismatch name.val expected count) name.span

end Callee

end StackCalc
