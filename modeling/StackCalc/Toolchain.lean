import StackCalc.Assembly.Image
import StackCalc.Failure
import StackCalc.Machine.Basic
import StackCalc.Program.Compile
import StackCalc.Source.Outline

/-!
# The toolchain

From the text of a program to its syntax, its assembly, its code and what it prints, each stage
taking what the one before it gives or stopping with its failure. A program may also be
interpreted, without any code.
-/

namespace StackCalc

/-- How a run has ended: by itself, with a failure, or not within the steps allowed. -/
inductive Outcome where
  | finished
  | failed (failure : Failure)
  | unfinished

/-- What was printed, and the end. -/
structure Run where
  printed : Array Number
  outcome : Outcome

/-- A run with what was made on the way to it, empty where a stage was not reached. -/
structure Execution where
  assembly : String
  image : Assembly.Image
  run : Run

namespace Toolchain

def parse (source : String) : Except Failure Source.Program := do
  let tokens ← (Source.tokens source.toList).mapError .lex
  (Source.parse tokens).mapError .parse

def compile (source : String) : Except Failure String := do
  (← parse source).assembly.mapError .compile

def assemble (assembly : String) : Except Failure Assembly.Image :=
  (Assembly.assemble assembly.toList).mapError .assemble

/-- Runs code for at most `limit` steps, faults naming variables by `names`. -/
def runCode (limit : Nat) (names : Names) (code : List UInt8) : Run :=
  match Machine.run code limit .initial with
  | (m, .halted) => ⟨m.printed, .finished⟩
  | (m, .faulted fault) => ⟨m.printed, .failed (.fault names fault)⟩
  | (m, .running) => ⟨m.printed, .unfinished⟩

def runImage (limit : Nat) (image : Assembly.Image) : Run :=
  runCode limit image.names image.bytecode

def execute (limit : Nat) (source : String) : Execution :=
  match compile source with
  | .error failure => ⟨"", .empty, #[], .failed failure⟩
  | .ok assembly =>
    match assemble assembly with
    | .error failure => ⟨assembly, .empty, #[], .failed failure⟩
    | .ok image => ⟨assembly, image, runImage limit image⟩

/-- Evaluates the text of a program in a session, which goes on whatever the outcome. -/
def interpretIn (session : Session) (source : String) : Session × Outcome :=
  match parse source with
  | .error failure => (session, .failed failure)
  | .ok program =>
    match session.evaluate program with
    | (session, .ok ()) => (session, .finished)
    | (session, .error e) => (session, .failed (.evaluate e))

def interpret (source : String) : Run :=
  let (session, outcome) := interpretIn .empty source
  ⟨session.printed, outcome⟩

/-- How a printed value is shown. -/
def shown (value : Number) : String := "=> " ++ value.text

end Toolchain

end StackCalc
