import StackCalc.Assembly.Entry
import StackCalc.Machine.Fault
import StackCalc.Program.Evaluate
import StackCalc.Source.Parser
import StackCalc.Text.Report

/-!
# Failures

One type for whatever can go wrong between the text of a program and its end. A failure knows the
stage it arose in, its message and, unless it is a fault of the machine, its span in the text that
the stage read.
-/

namespace StackCalc

inductive Failure where
  | lex (e : Located Source.LexError)
  | parse (e : Located Source.ParseError)
  | compile (e : Located CompileError)
  | assemble (e : Located Assembly.Refusal)
  | fault (names : Names) (fault : Fault)
  | evaluate (e : Located EvalError)

namespace Failure

def stage : Failure → Stage
  | lex _ => .lexing
  | parse _ => .parsing
  | compile _ => .compiling
  | assemble _ => .assembling
  | fault _ _ => .running
  | evaluate ⟨.program _, _⟩ => .compiling
  | evaluate ⟨.tooDeep, _⟩ => .running

def message : Failure → String
  | lex e => e.val.message
  | parse e => e.val.message
  | compile e => e.val.message
  | assemble e => e.val.message
  | fault names f => f.cause.message names
  | evaluate e => e.val.message

def span? : Failure → Option Span
  | lex e => some e.span
  | parse e => some e.span
  | compile e => some e.span
  | assemble e => some e.span
  | fault _ _ => none
  | evaluate e => some e.span

/-- The report on the text that the failing stage read. -/
def report (text : List Char) : Failure → String
  | fault names f => Report.onCode (f.cause.message names) f.offset
  | lex e => Report.onText .lexing e.val.message text e.span
  | parse e => Report.onText .parsing e.val.message text e.span
  | compile e => Report.onText .compiling e.val.message text e.span
  | assemble e => Report.onText .assembling e.val.message text e.span
  | evaluate e => Report.onText (evaluate e).stage e.val.message text e.span

end Failure

end StackCalc
