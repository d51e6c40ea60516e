import Mathlib.Logic.Function.Iterate
import StackCalc.Proofs.StaticErrors

/-!
# Evaluation in single steps

The evaluator as a machine that walks through the tree of a program. What is still to be done with a
value is written down: inside an expression as holes, behind a statement as the statements left, and
outside a body as the callers that wait for it. A counter is raised at every call of a function and
lowered when its body is left, by whatever way; it alone decides which call is too deep. Each step
is a plain function of the state, nothing bounds their number, and yet the walker always comes to an
end, with the outcome of evaluation.
-/

namespace StackCalc

open Source

/-- What a value is wanted for inside an expression. -/
inductive Hole where
  | rightOf (op : BinaryOp) (lhs : Expr)
  | leftOf (op : BinaryOp) (right : Number)
  | argument (name : Ident) (callee : Callee Closure) (done : List Number) (rest : List Expr)

/-- What a statement does with the value of its expression. -/
inductive Use where
  | assign (target : Ident)
  | giveBack
  | drop

/-- A place in a body where a value is wanted. The holes have the innermost first. -/
structure Place where
  holes : List Hole
  use : Use
  behind : List Stmt

def Place.inside (place : Place) (hole : Hole) : Place :=
  { place with holes := hole :: place.holes }

/-- What is to be done next in the body that runs. Arguments are gathered before the call. -/
inductive Control where
  | run (ss : List Stmt)
  | evaluate (e : Expr) (place : Place)
  | gather (name : Ident) (callee : Callee Closure) (done : List Number) (rest : List Expr)
    (place : Place)
  | give (value : Number) (place : Place)
  | leave (returned : Option Number)
  | fail (e : Located EvalError)

/-- A body that waits for the value of a call. -/
structure Caller where
  frame : Frame
  place : Place

/-- The callers have the innermost first; each waits for the activation above it. -/
structure Walker where
  control : Control
  activation : Activation
  depth : Nat
  callers : List Caller

namespace Walker

def begins (session : Session) (program : Program) : Walker :=
  ⟨.run program, ⟨.topLevel, session⟩, 0, []⟩

variable (w : Walker)

def goTo (control : Control) : Walker := { w with control := control }

def refuse (e : CompileError) (span : Span) : Walker := w.goTo (.fail ⟨.program e, span⟩)

/-- Goes on only with what a check lets pass. -/
def check {α : Type} (checked : Checked α) (next : α → Control) : Walker :=
  match checked with
  | .ok x => w.goTo (next x)
  | .error e => w.refuse e.val e.span

def runStatement (ss : List Stmt) : Stmt → Walker
  | .define name params body =>
    match checkParams params with
    | .error e => w.refuse e.val e.span
    | .ok () =>
      if name.val ∈ w.activation.frame.defined then w.refuse (.duplicateFunction name.val) name.span
      else
        { w with
          control := .run ss
          activation.frame := w.activation.frame.define name params body }
  | .assign target e => w.goTo (.evaluate e ⟨[], .assign target, ss⟩)
  | .giveBack e span =>
    if w.activation.frame.owner.isNone then w.refuse .returnOutsideFunction span
    else w.goTo (.evaluate e ⟨[], .giveBack, ss⟩)
  | .eval (.call name args) =>
    w.check (Evaluate.callee w.activation.frame name args.length) fun callee =>
      .gather name callee [] args ⟨[], .drop, ss⟩
  | .eval e => w.goTo (.evaluate e ⟨[], .drop, ss⟩)

def evaluate (place : Place) : Expr → Walker
  | .number v => w.goTo (.give v place)
  | .variable name =>
    match (w.activation.frame.findVariable? name.val).bind fun x =>
      w.activation.session.store.top? x.qualified with
    | some value => w.goTo (.give value place)
    | none => w.refuse (.unboundVariable name.val) name.span
  | .binary op lhs rhs => w.goTo (.evaluate rhs (place.inside (.rightOf op lhs)))
  | .call name args =>
    w.check (Evaluate.callee w.activation.frame name args.length) fun callee =>
      match callee with
      | .print => .fail ⟨.program .printHasNoValue, name.span⟩
      | .function _ => .gather name callee [] args place

/-- Calls a function, unless as many calls are open as may be. -/
def call (name : Ident) (f : Closure) (values : List Number) (place : Place) : Walker :=
  if maxCallDepth ≤ w.depth then w.goTo (.fail ⟨.tooDeep, name.span⟩)
  else
    { control := .run f.body
      activation := .enter w.activation.session f values
      depth := w.depth + 1
      callers := ⟨w.activation.frame, place⟩ :: w.callers }

def gather (name : Ident) (callee : Callee Closure) (done : List Number) (place : Place) :
    List Expr → Walker
  | arg :: rest => w.goTo (.evaluate arg (place.inside (.argument name callee done rest)))
  | [] =>
    match callee with
    | .function f => w.call name f done place
    | .print =>
      { w with
        control := .run place.behind
        activation.session.printed := w.activation.session.printed ++ done }

def give (value : Number) (place : Place) : Walker :=
  match place.holes with
  | .rightOf op lhs :: holes =>
    w.goTo (.evaluate lhs { place with holes := .leftOf op value :: holes })
  | .leftOf op right :: holes => w.goTo (.give (op.apply value right) { place with holes := holes })
  | .argument name callee done rest :: holes =>
    w.goTo (.gather name callee (done ++ [value]) rest { place with holes := holes })
  | [] =>
    match place.use with
    | .assign target =>
      { w with control := .run place.behind, activation := w.activation.bind target.val value }
    | .giveBack => w.goTo (.leave (some value))
    | .drop => w.goTo (.run place.behind)

/-- Leaves a body for its caller. There is nothing to leave the top level for. -/
def leave (next : Place → Control) : Walker :=
  match w.callers with
  | [] => w
  | caller :: callers =>
    { control := next caller.place
      activation := ⟨caller.frame, w.activation.leave⟩
      depth := w.depth - 1
      callers := callers }

def step : Walker :=
  match w.control with
  | .run [] => w.goTo (.leave none)
  | .run (s :: ss) => w.runStatement ss s
  | .evaluate e place => w.evaluate place e
  | .gather name callee done rest place => w.gather name callee done place rest
  | .give value place => w.give value place
  | .leave returned => w.leave (.give (returned.getD .zero))
  | .fail e => w.leave fun _ => .fail e

/-- How a walk has ended, once the top level is left. -/
def outcome? : Option (Session × Except (Located EvalError) Unit) :=
  match w.callers, w.control with
  | [], .leave _ => some (w.activation.session, .ok ())
  | [], .fail e => some (w.activation.session, .error e)
  | _, _ => none

section Call

variable {w} {name : Ident} {f : Closure} {values : List Number} {place : Place}

theorem call_of_full (h : maxCallDepth ≤ w.depth) :
    w.call name f values place = w.goTo (.fail ⟨.tooDeep, name.span⟩) := if_pos h

theorem call_of_open (h : ¬ maxCallDepth ≤ w.depth) :
    w.call name f values place =
      ⟨.run f.body, .enter w.activation.session f values, w.depth + 1,
        ⟨w.activation.frame, place⟩ :: w.callers⟩ := if_neg h

end Call

/-- Gets to another state in some number of steps. -/
def Comes (w w' : Walker) : Prop := ∃ n, step^[n] w = w'

theorem Comes.refl (w : Walker) : w.Comes w := ⟨0, rfl⟩

variable {w} {w₁ w₂ : Walker}

theorem Comes.trans (h₁ : w.Comes w₁) (h₂ : w₁.Comes w₂) : w.Comes w₂ := by
  obtain ⟨m, rfl⟩ := h₁
  obtain ⟨n, rfl⟩ := h₂
  exact ⟨n + m, Function.iterate_add_apply step n m w⟩

theorem Comes.head (h : w.step = w₁) (h₁ : w₁.Comes w₂) : w.Comes w₂ :=
  Comes.trans ⟨1, h⟩ h₁

end Walker

/-- A walker that has something to do, in an activation that a view makes of a state, gets to where
an evaluation in that state does, the value given on. The callers are left alone. -/
def Leads {σ α : Type} (view : σ → Activation) (depth : Nat) (callers : List Caller)
    (control : Control) (x : EStateM (Located EvalError) σ α) (next : α → Control) : Prop :=
  ∀ s, (⟨control, view s, depth, callers⟩ : Walker).Comes
    (match x s with
    | .ok v s' => ⟨next v, view s', depth, callers⟩
    | .error e s' => ⟨.fail e, view s', depth, callers⟩)

namespace Leads

variable {σ α β : Type} {view : σ → Activation} {depth : Nat} {callers : List Caller}
  {control control' : Control} {x : EStateM (Located EvalError) σ α} {next mid : α → Control}
  {f : α → EStateM (Located EvalError) σ β} {next' : β → Control}

theorem pure (v : α) (h : next v = control) :
    Leads view depth callers control (Pure.pure v) next := by
  intro s
  subst h
  exact .refl _

theorem head (h : ∀ s, (⟨control, view s, depth, callers⟩ : Walker).step =
      ⟨control', view s, depth, callers⟩)
    (hx : Leads view depth callers control' x next) : Leads view depth callers control x next :=
  fun s => .head (h s) (hx s)

theorem bind (hx : Leads view depth callers control x mid)
    (hf : ∀ v, Leads view depth callers (mid v) (f v) next') :
    Leads view depth callers control (x >>= f) next' := by
  intro s
  have hs := hx s
  change Walker.Comes _ (match EStateM.bind x f s with | .ok v s' => _ | .error e s' => _)
  unfold EStateM.bind
  cases hv : x s with
  | ok v s' =>
      rw [hv] at hs
      exact hs.trans (hf v s')
  | error e s' =>
      rw [hv] at hs
      exact hs

/-- A check lets a value pass, or both sides fail with what it refuses. -/
theorem check {checked : Checked α}
    (h : ∀ s, (⟨control, view s, depth, callers⟩ : Walker).step =
      (⟨control, view s, depth, callers⟩ : Walker).check checked mid)
    (hf : ∀ v, Leads view depth callers (mid v) (f v) next') :
    Leads view depth callers control (Evaluate.check checked >>= f) next' := by
  cases checked with
  | ok v => exact (hf v).head h
  | error e => exact fun s => .head (h s) (.refl _)

theorem discard {last : Control} (hx : Leads view depth callers control x mid)
    (h : ∀ v s, (⟨mid v, view s, depth, callers⟩ : Walker).step =
      ⟨last, view s, depth, callers⟩) :
    Leads view depth callers control (Functor.discard x) fun _ => last :=
  hx.bind fun v => .head (h v) (.pure () rfl)

theorem inFrame {act : Frame → Evaluate.Eval α}
    (h : ∀ frame, Leads (Activation.mk frame) depth callers control (act frame) next) :
    Leads id depth callers control (Evaluate.inFrame act) next := by
  intro a
  have ha := h a.frame a.session
  unfold Evaluate.inFrame
  cases hv : act a.frame a.session with
  | ok v s => rwa [hv] at ha
  | error e s => rwa [hv] at ha

end Leads

section Following

variable {invoke : Evaluate.Invoke} {depth : Nat} {callers : List Caller} {frame : Frame}

/-- From where its arguments are all gathered, a call leads to its value. -/
def CallsLead (invoke : Evaluate.Invoke) (depth : Nat) (callers : List Caller) : Prop :=
  ∀ frame name f values place, Leads (Activation.mk frame) depth callers
    (.gather name (.function f) values [] place) (invoke name.span f values) (.give · place)

theorem arguments_lead {name : Ident} {callee : Callee Closure} {place : Place} {es : List Expr}
    (hes : ∀ e ∈ es, ∀ place, Leads (Activation.mk frame) depth callers (.evaluate e place)
      (Evaluate.expression invoke frame e) (.give · place)) (done : List Number) :
    Leads (Activation.mk frame) depth callers (.gather name callee done es place)
      (Evaluate.arguments invoke frame es)
      fun values => .gather name callee (done ++ values) [] place := by
  induction es generalizing done with
  | nil =>
      rw [Evaluate.arguments]
      exact .pure [] (by rw [List.append_nil])
  | cons e es ih =>
      rw [Evaluate.arguments]
      apply Leads.head (fun s => rfl)
      apply (hes e List.mem_cons_self (place.inside (.argument name callee done es))).bind
      intro first
      apply Leads.head (fun s => rfl)
      apply (ih (fun e he => hes e (List.mem_cons_of_mem _ he)) (done ++ [first])).bind
      intro rest
      exact .pure _ (by rw [List.append_cons])

theorem variable_leads (name : Ident) (place : Place) :
    Leads (Activation.mk frame) depth callers (.evaluate (.variable name) place)
      (Evaluate.value frame name) (.give · place) := by
  intro s
  apply Walker.Comes.head rfl
  unfold Walker.step Walker.evaluate Evaluate.value
  rw [run_get_bind]
  dsimp only
  cases (frame.findVariable? name.val).bind fun x => s.store.top? x.qualified with
  | none => exact .refl _
  | some value => exact .refl _

theorem expression_leads (hcalls : CallsLead invoke depth callers) (e : Expr) (place : Place) :
    Leads (Activation.mk frame) depth callers (.evaluate e place)
      (Evaluate.expression invoke frame e) (.give · place) := by
  induction e using Expr.induction_args generalizing place with
  | number value =>
      rw [Evaluate.expression]
      exact .head (fun s => rfl) (.pure value rfl)
  | var name =>
      rw [Evaluate.expression]
      exact variable_leads name place
  | binary op lhs rhs ihl ihr =>
      rw [Evaluate.expression]
      apply Leads.head (fun s => rfl)
      apply (ihr (place.inside (.rightOf op lhs))).bind
      intro right
      apply Leads.head (fun s => rfl)
      apply (ihl (place.inside (.leftOf op right))).bind
      intro left
      exact .head (fun s => rfl) (.pure _ rfl)
  | call name args ih =>
      rw [Evaluate.expression]
      apply Leads.check (fun s => rfl)
      intro callee
      cases callee with
      | print => exact fun s => .refl _
      | function f =>
          apply (arguments_lead ih []).bind
          intro values
          exact hcalls frame name f values place

/-- What is done behind a statement, if it does not return. -/
def Control.behind (ss : List Stmt) : Option Number → Control
  | none => .run ss
  | some value => .leave (some value)

theorem effect_leads (hcalls : CallsLead invoke depth callers) (e : Expr) (ss : List Stmt) :
    Leads (Activation.mk frame) depth callers (.run (.eval e :: ss))
      (Evaluate.effect invoke frame e) fun _ => .run ss := by
  cases e with
  | call name args =>
      rw [Evaluate.effect]
      apply Leads.check (fun s => rfl)
      intro callee
      have harguments : Leads (Activation.mk frame) depth callers
          (.gather name callee [] args ⟨[], .drop, ss⟩) (Evaluate.arguments invoke frame args)
          (.gather name callee · [] ⟨[], .drop, ss⟩) :=
        arguments_lead (fun e _ => expression_leads hcalls e) []
      cases callee with
      | print =>
          apply harguments.bind
          intro values s
          exact .head rfl (.refl _)
      | function f =>
          apply harguments.bind
          intro values
          exact (hcalls frame name f values _).discard fun v s => rfl
  | number value | «variable» name | binary op lhs rhs =>
      apply Leads.head (fun s => rfl)
      exact (expression_leads hcalls _ _).discard fun v s => rfl

theorem define_leads (name : Ident) (params : List Ident) (body ss : List Stmt) :
    Leads id depth callers (.run (.define name params body :: ss))
      (Evaluate.statement invoke (.define name params body)) (.behind ss) := by
  intro a
  apply Walker.Comes.head rfl
  unfold Walker.step Walker.runStatement
  dsimp only
  cases hparams : checkParams params with
  | error e =>
      rw [Evaluate.statement, hparams]
      exact .refl _
  | ok _ =>
      dsimp only [id]
      by_cases hgiven : name.val ∈ a.frame.defined
      · rw [Evaluate.define_twice hparams hgiven, if_pos hgiven]
        exact .refl _
      · rw [Evaluate.define_eq hparams hgiven, if_neg hgiven]
        exact .refl _

theorem giveBack_leads (hcalls : CallsLead invoke depth callers) (e : Expr) (span : Span)
    (ss : List Stmt) :
    Leads id depth callers (.run (.giveBack e span :: ss))
      (Evaluate.statement invoke (.giveBack e span)) (.behind ss) := by
  intro a
  have hvalue : Leads id depth callers (.evaluate e ⟨[], .giveBack, ss⟩)
      (Evaluate.inFrame (fun frame => Evaluate.expression invoke frame e) >>=
        fun value => pure (some value)) (.behind ss) := by
    apply (Leads.inFrame fun frame => expression_leads hcalls e _).bind
    intro value
    exact .head (fun s => rfl) (.pure _ rfl)
  apply Walker.Comes.head rfl
  unfold Walker.step Walker.runStatement
  dsimp only [id]
  by_cases howner : a.frame.owner.isNone
  · rw [Evaluate.statement, run_get_bind, if_pos howner, if_pos howner]
    exact .refl _
  · rw [Evaluate.giveBack_eq (mt Option.isNone_iff_eq_none.2 howner), if_neg howner]
    exact hvalue a

theorem statement_leads (hcalls : CallsLead invoke depth callers) (s : Stmt) (ss : List Stmt) :
    Leads id depth callers (.run (s :: ss)) (Evaluate.statement invoke s) (.behind ss) := by
  cases s with
  | define name params body => exact define_leads name params body ss
  | assign target e =>
      rw [Evaluate.assign_eq]
      apply Leads.head (fun s => rfl)
      apply (Leads.inFrame fun frame => expression_leads hcalls e _).bind
      intro value a
      exact .head rfl (.refl _)
  | giveBack e span => exact giveBack_leads hcalls e span ss
  | eval e =>
      rw [Evaluate.eval_eq]
      apply (Leads.inFrame fun frame => effect_leads hcalls e ss).bind
      intro _
      exact .pure _ rfl

theorem statements_lead (hcalls : CallsLead invoke depth callers) (ss : List Stmt) :
    Leads id depth callers (.run ss) (Evaluate.statements invoke ss) .leave := by
  induction ss with
  | nil =>
      rw [Evaluate.statements]
      exact .head (fun s => rfl) (.pure none rfl)
  | cons s ss ih =>
      rw [Evaluate.statements]
      apply (statement_leads hcalls s ss).bind
      intro returned
      cases returned with
      | none => exact ih
      | some value => exact .pure _ rfl

/-- With a number of calls open, as many more are allowed inside one another as are missing to the
limit. -/
theorem invokeWithin_lead {allowed : Nat} (hallowed : depth + allowed = maxCallDepth)
    (callers : List Caller) : CallsLead (Evaluate.invokeWithin allowed) depth callers := by
  -- A function may call itself, so that only the calls that are still allowed become fewer.
  induction allowed generalizing depth callers with
  | zero =>
      intro frame name f values place session
      have hfull : maxCallDepth ≤ depth := Nat.le_of_eq hallowed.symm
      exact .head (Walker.call_of_full hfull) (.refl _)
  | succ allowed ih =>
      intro frame name f values place session
      have hinner : depth + 1 + allowed = maxCallDepth := by omega
      have hopen : ¬ maxCallDepth ≤ depth := by omega
      have hbody := statements_lead (ih hinner (⟨frame, place⟩ :: callers)) f.body
        (Activation.enter session f values)
      refine .head (Walker.call_of_open hopen) (hbody.trans ?_)
      rw [Evaluate.invokeWithin_succ, Evaluate.body]
      cases Evaluate.statements (Evaluate.invokeWithin allowed) f.body
        (Activation.enter session f values) with
      | ok returned a => exact .head rfl (.refl _)
      | error e a => exact .head rfl (.refl _)

end Following

/-- Every walk comes to an end, with the outcome of evaluation. -/
theorem Walker.exists_outcome (session : Session) (program : Program) :
    ∃ n, (step^[n] (begins session program)).outcome? = some (session.evaluate program) := by
  obtain ⟨n, hn⟩ := statements_lead (invokeWithin_lead (Nat.zero_add maxCallDepth) []) program
    ⟨.topLevel, session⟩
  have hbegins : begins session program = ⟨.run program, ⟨.topLevel, session⟩, 0, []⟩ := rfl
  use n
  rw [hbegins]
  change step^[n] ⟨.run program, ⟨.topLevel, session⟩, 0, []⟩ = _ at hn
  rw [hn, Session.evaluate]
  cases Evaluate.statements (Evaluate.invokeWithin maxCallDepth) program
    ⟨.topLevel, session⟩ <;> rfl

end StackCalc
