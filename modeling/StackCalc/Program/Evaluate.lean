import StackCalc.Machine.Bindings
import StackCalc.Program.Check
import StackCalc.Program.Scopes
import StackCalc.Source.Syntax

/-!
# Evaluation

A program evaluated as it stands. A function keeps what was visible where it was defined, and
sees itself; each call opens a frame, and what the frame binds is taken away when it is left,
whether by a value or by an error. Values of variables are stacked under qualified names, so the
innermost activation is the one that is read. Calls may enclose one another up to a limit, which
is what the recursion runs on.
-/

namespace StackCalc

open Source

def maxCallDepth : Nat := 200

inductive EvalError where
  | program (e : CompileError)
  | tooDeep
deriving DecidableEq

def EvalError.message : EvalError → String
  | program e => e.message
  | tooDeep => s!"call depth exceeds {maxCallDepth}"

/-- A function together with what was visible where it was defined, the newest first. -/
structure Closure where
  id : ScopedName
  params : List Ident
  body : List Stmt
  vars : List ScopedName
  functions : List Closure

/-- What the body that is running sees: its own bindings, those from around it, and functions. The
owner is the function that the body belongs to. -/
structure Frame where
  owner : Option ScopedName
  own : List ScopedName
  outer : List ScopedName
  functions : List Closure
  defined : List String

namespace Frame

def topLevel : Frame := ⟨none, [], [], [], []⟩

def ofClosure (f : Closure) : Frame := ⟨some f.id, [], f.vars, f :: f.functions, []⟩

variable (frame : Frame)

def vars : List ScopedName := frame.own ++ frame.outer

def qualify (name : String) : ScopedName :=
  match frame.owner with
  | none => ⟨name, name⟩
  | some f => ⟨name, f.qualified ++ "." ++ name⟩

def findVariable? (name : String) : Option ScopedName := frame.vars.find? (·.name = name)

def findFunction? (name : String) : Option Closure := frame.functions.find? (·.id.name = name)

def define (name : Ident) (params : List Ident) (body : List Stmt) : Frame :=
  let f : Closure := ⟨frame.qualify name.val, params, body, frame.vars, frame.functions⟩
  { frame with functions := f :: frame.functions, defined := name.val :: frame.defined }

end Frame

/-- What evaluation changes: the values of variables, and what was printed, in order. -/
structure Session where
  store : Bindings String Number
  printed : Array Number

def Session.empty : Session := ⟨∅, #[]⟩

/-- A frame that is running in a session. -/
structure Activation where
  frame : Frame
  session : Session

namespace Activation

def bind (a : Activation) (name : String) (value : Number) : Activation :=
  let x := a.frame.qualify name
  ⟨{ a.frame with own := x :: a.frame.own },
    { a.session with store := a.session.store.push x.qualified value }⟩

/-- Opens the frame of a call. -/
def enter (session : Session) (f : Closure) (values : List Number) : Activation :=
  (f.params.zip values).foldl (fun a (param, value) => a.bind param.val value)
    ⟨.ofClosure f, session⟩

/-- Takes away what the frame bound, the newest first. -/
def leave (a : Activation) : Session :=
  let store := a.frame.own.foldl (fun store x => store.pop x.qualified) a.session.store
  { a.session with store := store }

end Activation

namespace Evaluate

abbrev Eval := EStateM (Located EvalError) Session

abbrev BodyEval := EStateM (Located EvalError) Activation

/-- Goes on only with what a check lets pass. -/
def check {σ α : Type} : Checked α → EStateM (Located EvalError) σ α
  | .ok x => pure x
  | .error e => throw ⟨.program e.val, e.span⟩

/-- How a function is called with values, at the span of its name. -/
abbrev Invoke := Span → Closure → List Number → Eval Number

def callee (frame : Frame) (name : Ident) (count : Nat) : Checked (Callee Closure) :=
  Callee.resolve (frame.findFunction? name.val) (·.params.length) name count

def value (frame : Frame) (name : Ident) : Eval Number := do
  let store := (← get).store
  match (frame.findVariable? name.val).bind fun x => store.top? x.qualified with
  | some value => return value
  | none => check (refuse (.unboundVariable name.val) name.span)

def print (values : List Number) : Eval Unit :=
  modify fun s => { s with printed := s.printed ++ values }

variable (invoke : Invoke)

mutual

def expression (frame : Frame) : Expr → Eval Number
  | .number v => pure v
  | .variable name => value frame name
  | .binary op lhs rhs => do
    let right ← expression frame rhs
    let left ← expression frame lhs
    return op.apply left right
  | .call name args => do
    match ← check (callee frame name args.length) with
    | .print => check (refuse .printHasNoValue name.span)
    | .function f => invoke name.span f (← arguments frame args)

def arguments (frame : Frame) : List Expr → Eval (List Number)
  | [] => pure []
  | arg :: args => do
    let first ← expression frame arg
    return first :: (← arguments frame args)

end

/-- An expression on its own, its value dropped. Here `print` may be called. -/
def effect (frame : Frame) : Expr → Eval Unit
  | .call name args => do
    match ← check (callee frame name args.length) with
    | .print => print (← arguments invoke frame args)
    | .function f => discard (invoke name.span f (← arguments invoke frame args))
  | e => discard (expression invoke frame e)

/-- Runs in the session of an activation what does not change its frame. -/
def inFrame {α : Type} (act : Frame → Eval α) : BodyEval α := fun a =>
  match act a.frame a.session with
  | .ok x s => .ok x { a with session := s }
  | .error e s => .error e { a with session := s }

/-- Gives the value that is returned, if the statement returns. -/
def statement : Stmt → BodyEval (Option Number)
  | .define name params body => do
    check (checkParams params)
    if name.val ∈ (← get).frame.defined then
      check (refuse (.duplicateFunction name.val) name.span)
    modify fun a => { a with frame := a.frame.define name params body }
    return none
  | .assign target e => do
    let value ← inFrame fun frame => expression invoke frame e
    modify fun a => a.bind target.val value
    return none
  | .giveBack e span => do
    if (← get).frame.owner.isNone then
      check (refuse .returnOutsideFunction span)
    return some (← inFrame fun frame => expression invoke frame e)
  | .eval e => do
    inFrame fun frame => effect invoke frame e
    return none

/-- Runs statements until one returns. -/
def statements : List Stmt → BodyEval (Option Number)
  | [] => pure none
  | s :: ss => do
    match ← statement invoke s with
    | some value => return some value
    | none => statements ss

/-- Calls a function, with `depth` more calls allowed inside one another. A body that does not
return gives zero. -/
def invokeWithin : (depth : Nat) → Invoke
  | 0, span, _, _ => throw ⟨.tooDeep, span⟩
  | depth + 1, _, f, values => fun session =>
    match statements (invokeWithin depth) f.body (Activation.enter session f values) with
    | .ok returned a => .ok (returned.getD .zero) a.leave
    | .error e a => .error e a.leave

end Evaluate

/-- Evaluates a program in a session. Its names are its own, but for what it prints. -/
def Session.evaluate (session : Session) (program : Program) :
    Session × Except (Located EvalError) Unit :=
  match Evaluate.statements (Evaluate.invokeWithin maxCallDepth) program ⟨.topLevel, session⟩ with
  | .ok _ a => (a.session, .ok ())
  | .error e a => (a.session, .error e)

end StackCalc
