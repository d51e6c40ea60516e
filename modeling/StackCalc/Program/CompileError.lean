import StackCalc.Text.Span

/-!
# Errors of programs

What can be wrong with a program that parses. Compiling finds all of these up front; evaluating
finds them where it gets to them.
-/

namespace StackCalc

inductive CompileError where
  | unboundVariable (name : String)
  | unknownFunction (name : String)
  | arityMismatch (name : String) (expected found : Nat)
  | printHasNoValue
  | returnOutsideFunction
  | duplicateFunction (name : String)
  | duplicateParameter (name : String)
deriving DecidableEq

def CompileError.message : CompileError → String
  | unboundVariable name => s!"variable '{name}' not found"
  | unknownFunction name => s!"function '{name}' not found"
  | arityMismatch name expected found =>
    s!"function '{name}' takes {expected} argument(s) but {found} were given"
  | printHasNoValue => "'print' does not produce a value"
  | returnOutsideFunction => "'return' outside of a function"
  | duplicateFunction name => s!"function '{name}' is already defined"
  | duplicateParameter name => s!"parameter '{name}' is declared twice"

abbrev Checked := Except (Located CompileError)

def refuse {α : Type} (e : CompileError) (span : Span) : Checked α := .error ⟨e, span⟩

end StackCalc
