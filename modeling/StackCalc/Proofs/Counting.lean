import StackCalc.Program.Evaluate
import StackCalc.Proofs.Definitions
import StackCalc.Proofs.Outcome

/-!
# Open calls counted

Evaluation allows a number of calls inside one another, and takes that number as an argument. Here
the evaluator keeps a counter of the calls that are open: a call is refused when the counter is at
the limit, counts itself while its body runs, and stops counting itself on every way out. Both come
to the same, and an evaluator that begins with no call open ends with none.
-/

namespace StackCalc

open Source

/-- A state together with the number of calls that are open. -/
structure Counted (σ : Type) where
  state : σ
  depth : Nat

namespace Counted

variable {σ α β : Type}

abbrev Counting (σ : Type) := EStateM (Located EvalError) (Counted σ)

/-- Does what has nothing to do with calls. -/
def lift (act : EStateM (Located EvalError) σ α) : Counting σ α := fun s =>
  match act s.state with
  | .ok x state => .ok x ⟨state, s.depth⟩
  | .error e state => .error e ⟨state, s.depth⟩

/-- How a function is called with values, at the span of its name. -/
abbrev Invoke := Span → Closure → List Number → Counting Session Number

variable (invoke : Invoke)

mutual

def expression (frame : Frame) : Expr → Counting Session Number
  | .number v => pure v
  | .variable name => lift (Evaluate.value frame name)
  | .binary op lhs rhs => do
    let right ← expression frame rhs
    let left ← expression frame lhs
    return op.apply left right
  | .call name args => do
    match ← lift (Evaluate.check (Evaluate.callee frame name args.length)) with
    | .print => lift (Evaluate.check (refuse .printHasNoValue name.span))
    | .function f => invoke name.span f (← arguments frame args)

def arguments (frame : Frame) : List Expr → Counting Session (List Number)
  | [] => pure []
  | arg :: args => do
    let first ← expression frame arg
    return first :: (← arguments frame args)

end

def effect (frame : Frame) : Expr → Counting Session Unit
  | .call name args => do
    match ← lift (Evaluate.check (Evaluate.callee frame name args.length)) with
    | .print => lift (Evaluate.print (← arguments invoke frame args))
    | .function f => discard (invoke name.span f (← arguments invoke frame args))
  | e => discard (expression invoke frame e)

def inFrame (act : Frame → Counting Session α) : Counting Activation α := fun a =>
  match act a.state.frame ⟨a.state.session, a.depth⟩ with
  | .ok x s => .ok x ⟨{ a.state with session := s.state }, s.depth⟩
  | .error e s => .error e ⟨{ a.state with session := s.state }, s.depth⟩

def statement : Stmt → Counting Activation (Option Number)
  | .define name params body => lift do
    Evaluate.check (checkParams params)
    if name.val ∈ (← get).frame.defined then
      Evaluate.check (refuse (.duplicateFunction name.val) name.span)
    modify fun a => { a with frame := a.frame.define name params body }
    return none
  | .assign target e => do
    let value ← inFrame fun frame => expression invoke frame e
    lift (modify fun a => a.bind target.val value)
    return none
  | .giveBack e span => do
    if (← get).state.frame.owner.isNone then
      lift (Evaluate.check (refuse .returnOutsideFunction span))
    return some (← inFrame fun frame => expression invoke frame e)
  | .eval e => do
    inFrame fun frame => effect invoke frame e
    return none

def statements : List Stmt → Counting Activation (Option Number)
  | [] => pure none
  | s :: ss => do
    match ← statement invoke s with
    | some value => return some value
    | none => statements ss

/-- Calls a function. The counter is what refuses a call; with as much fuel as it lets calls open,
and one more, the fuel never runs out. -/
def invokeWithin : (fuel : Nat) → Invoke
  | 0, span, _, _ => throw ⟨.tooDeep, span⟩
  | fuel + 1, span, f, values => fun s =>
    if maxCallDepth ≤ s.depth then .error ⟨.tooDeep, span⟩ s
    else
      match statements (invokeWithin fuel) f.body
        ⟨Activation.enter s.state f values, s.depth + 1⟩ with
      | .ok returned a => .ok (returned.getD .zero) ⟨a.state.leave, a.depth - 1⟩
      | .error e a => .error e ⟨a.state.leave, a.depth - 1⟩

def call : Invoke := invokeWithin (maxCallDepth + 1)

/-- Evaluates a program in the session that is kept, with the calls that are open. -/
def evaluate (s : Counted Session) (program : Program) :
    Counted Session × Except (Located EvalError) Unit :=
  match statements call program ⟨⟨.topLevel, s.state⟩, s.depth⟩ with
  | .ok _ a => (⟨a.state.session, a.depth⟩, .ok ())
  | .error e a => (⟨a.state.session, a.depth⟩, .error e)

def fresh : Counted Session := ⟨.empty, 0⟩

/-- Evaluates programs in turn, going on whatever their outcome. -/
def evaluateAll (s : Counted Session) (programs : List Program) : Counted Session :=
  programs.foldl (fun s program => (s.evaluate program).1) s

/-- With a number of calls open, an evaluation that counts them does what another does, and has as
many open at its end. -/
def Counts (depth : Nat) (x : Counting σ α) (y : EStateM (Located EvalError) σ α) : Prop :=
  ∀ s, x ⟨s, depth⟩ = lift y ⟨s, depth⟩

namespace Counts

variable {depth : Nat} {x : Counting σ α} {y : EStateM (Located EvalError) σ α}
  {f : α → Counting σ β} {g : α → EStateM (Located EvalError) σ β}

theorem lift (act : EStateM (Located EvalError) σ α) : Counts depth (lift act) act :=
  fun _ => rfl

theorem pure (v : α) : Counts depth (Pure.pure v : Counting σ α) (Pure.pure v) := fun _ => rfl

theorem bind (h : Counts depth x y) (hf : ∀ v, Counts depth (f v) (g v)) :
    Counts depth (x >>= f) (y >>= g) := by
  intro s
  change EStateM.bind x f _ = Counted.lift (EStateM.bind y g) _
  unfold EStateM.bind
  rw [h s]
  unfold Counted.lift
  dsimp only
  cases y s with
  | ok v s' => exact hf v s'
  | error e s' => rfl

theorem discard (h : Counts depth x y) :
    Counts depth (Functor.discard x : Counting σ Unit) (Functor.discard y) := by
  intro s
  change EStateM.map _ x _ = Counted.lift (EStateM.map _ y) _
  unfold EStateM.map
  rw [h s]
  unfold Counted.lift
  dsimp only
  cases y s <;> rfl

theorem inFrame {act : Frame → Counting Session α} {act' : Frame → Evaluate.Eval α}
    (h : ∀ frame, Counts depth (act frame) (act' frame)) :
    Counts depth (inFrame act) (Evaluate.inFrame act') := by
  intro a
  unfold Counted.inFrame Counted.lift Evaluate.inFrame
  dsimp only
  rw [h a.frame a.session]
  unfold Counted.lift
  dsimp only
  cases act' a.frame a.session <;> rfl

end Counts

section Evaluator

variable {depth : Nat} {invoke : Invoke} {invoke' : Evaluate.Invoke}

theorem arguments_counts {frame : Frame} {es : List Expr}
    (hes : ∀ e ∈ es,
      Counts depth (expression invoke frame e) (Evaluate.expression invoke' frame e)) :
    Counts depth (arguments invoke frame es) (Evaluate.arguments invoke' frame es) := by
  induction es with
  | nil =>
      rw [arguments, Evaluate.arguments]
      exact .pure []
  | cons e es ih =>
      rw [arguments, Evaluate.arguments]
      refine (hes e List.mem_cons_self).bind fun first => ?_
      exact (ih fun e he => hes e (List.mem_cons_of_mem _ he)).bind fun rest => .pure _

theorem expression_counts
    (hcalls : ∀ span f values, Counts depth (invoke span f values) (invoke' span f values))
    (frame : Frame) (e : Expr) :
    Counts depth (expression invoke frame e) (Evaluate.expression invoke' frame e) := by
  induction e using Expr.induction_args with
  | number value =>
      rw [expression, Evaluate.expression]
      exact .pure value
  | var name =>
      rw [expression, Evaluate.expression]
      exact .lift _
  | binary op lhs rhs ihl ihr =>
      rw [expression, Evaluate.expression]
      exact ihr.bind fun right => ihl.bind fun left => .pure _
  | call name args ih =>
      rw [expression, Evaluate.expression]
      refine (Counts.lift _).bind fun callee => ?_
      cases callee with
      | print => exact .lift _
      | function f => exact (arguments_counts ih).bind fun values => hcalls name.span f values

theorem effect_counts
    (hcalls : ∀ span f values, Counts depth (invoke span f values) (invoke' span f values))
    (frame : Frame) (e : Expr) :
    Counts depth (effect invoke frame e) (Evaluate.effect invoke' frame e) := by
  have hexpression := expression_counts hcalls frame
  cases e with
  | call name args =>
      rw [effect, Evaluate.effect]
      refine (Counts.lift _).bind fun callee => ?_
      have harguments := arguments_counts fun e (_ : e ∈ args) => hexpression e
      cases callee with
      | print => exact harguments.bind fun values => .lift _
      | function f => exact harguments.bind fun values => (hcalls name.span f values).discard
  | number value | «variable» name | binary op lhs rhs => exact (hexpression _).discard

theorem statement_counts
    (hcalls : ∀ span f values, Counts depth (invoke span f values) (invoke' span f values))
    (s : Stmt) : Counts depth (statement invoke s) (Evaluate.statement invoke' s) := by
  cases s with
  | define name params body => exact .lift _
  | assign target e =>
      refine (Counts.inFrame fun frame => expression_counts hcalls frame e).bind fun value => ?_
      exact (Counts.lift _).bind fun _ => .pure none
  | giveBack e span =>
      have hvalue := (Counts.inFrame fun frame => expression_counts hcalls frame e).bind
        fun value => .pure (some value)
      intro a
      by_cases howner : a.frame.owner.isNone
      · rw [statement, Evaluate.statement, run_get_bind, if_pos howner, lift, run_get_bind,
          if_pos howner]
        rfl
      · rw [statement, Evaluate.statement, run_get_bind, if_neg howner, lift, run_get_bind,
          if_neg howner]
        exact hvalue a
  | eval e =>
      exact (Counts.inFrame fun frame => effect_counts hcalls frame e).bind fun _ => .pure none

theorem statements_counts
    (hcalls : ∀ span f values, Counts depth (invoke span f values) (invoke' span f values))
    (ss : List Stmt) : Counts depth (statements invoke ss) (Evaluate.statements invoke' ss) := by
  induction ss with
  | nil => exact .pure none
  | cons s ss ih =>
      refine (statement_counts hcalls s).bind fun returned => ?_
      cases returned with
      | none => exact ih
      | some value => exact .pure _

theorem invokeWithin_full {fuel : Nat} {span : Span} {f : Closure} {values : List Number}
    {s : Session} (hdepth : maxCallDepth ≤ depth) :
    invokeWithin (fuel + 1) span f values ⟨s, depth⟩ = .error ⟨.tooDeep, span⟩ ⟨s, depth⟩ :=
  if_pos hdepth

theorem invokeWithin_open {fuel : Nat} {span : Span} {f : Closure} {values : List Number}
    {s : Session} (hdepth : ¬ maxCallDepth ≤ depth) :
    invokeWithin (fuel + 1) span f values ⟨s, depth⟩ =
      match statements (invokeWithin fuel) f.body
        ⟨Activation.enter s f values, depth + 1⟩ with
      | .ok returned a => .ok (returned.getD .zero) ⟨a.state.leave, a.depth - 1⟩
      | .error e a => .error e ⟨a.state.leave, a.depth - 1⟩ :=
  if_neg hdepth

/-- With a number of calls open, as many more are allowed as are missing to the limit. -/
theorem invokeWithin_counts {fuel : Nat} (hfuel : maxCallDepth - depth < fuel) (span : Span)
    (f : Closure) (values : List Number) :
    Counts depth (invokeWithin fuel span f values)
      (Evaluate.invokeWithin (maxCallDepth - depth) span f values) := by
  induction fuel generalizing depth span f values with
  | zero => exact absurd hfuel (Nat.not_lt_zero _)
  | succ fuel ih =>
      intro s
      by_cases hdepth : maxCallDepth ≤ depth
      · rw [invokeWithin_full hdepth, Nat.sub_eq_zero_of_le hdepth]
        rfl
      · obtain ⟨allowed, hallowed⟩ := Nat.exists_eq_add_of_lt (Nat.lt_of_not_le hdepth)
        have hinner : maxCallDepth - (depth + 1) = allowed := by omega
        have houter : maxCallDepth - depth = allowed + 1 := by omega
        have hcalls : ∀ span f values, Counts (depth + 1) (invokeWithin fuel span f values)
            (Evaluate.invokeWithin (maxCallDepth - (depth + 1)) span f values) :=
          ih (by omega)
        have hbody := statements_counts hcalls f.body (Activation.enter s f values)
        rw [hinner] at hbody
        rw [invokeWithin_open hdepth, houter, hbody, Evaluate.invokeWithin]
        unfold lift
        dsimp only
        cases Evaluate.statements (Evaluate.invokeWithin allowed) f.body
          (Activation.enter s f values) <;> rfl

theorem call_counts (depth : Nat) (span : Span) (f : Closure) (values : List Number) :
    Counts depth (call span f values)
      (Evaluate.invokeWithin (maxCallDepth - depth) span f values) :=
  invokeWithin_counts (Nat.lt_succ_of_le (Nat.sub_le _ _)) span f values

end Evaluator

/-- With no call open, a program is evaluated as it is without a counter, and no call is open
then. -/
theorem evaluate_eq (session : Session) (program : Program) :
    evaluate ⟨session, 0⟩ program =
      (⟨(session.evaluate program).1, 0⟩, (session.evaluate program).2) := by
  have hstatements := statements_counts (call_counts 0) program ⟨.topLevel, session⟩
  rw [Nat.sub_zero] at hstatements
  rw [evaluate, hstatements]
  unfold lift Session.evaluate
  dsimp only
  cases Evaluate.statements (Evaluate.invokeWithin maxCallDepth) program ⟨.topLevel, session⟩ <;>
    rfl

end Counted

end StackCalc
