import StackCalc.Proofs.Convention
import StackCalc.Proofs.Counting
import StackCalc.Proofs.StaticErrors

/-!
# What evaluation leaves behind

Evaluating an expression leaves the values of variables as they are and as many calls open as
before, however it ends and wherever a program has come to. Each body adds values on top of those
that are there, by the names that its frame keeps, and takes as many away by the same names; so all
that is left of a program are the values of the assignments that it has got through itself.
-/

namespace StackCalc

open Source

/-- The state at the end of a computation, whether there is a value or an error. -/
def endState {ε σ α : Type} : EStateM.Result ε σ α → σ
  | .ok _ s | .error _ s => s

namespace Evaluate

/-- However an evaluation ends, the values of variables are those from before. -/
def Keeps {α : Type} (x : Eval α) : Prop :=
  ∀ s : Session, s.store.Proper → (endState (x s)).store = s.store

namespace Keeps

variable {α β : Type} {x : Eval α} {f : α → Eval β}

theorem pure (v : α) : Keeps (Pure.pure v) := fun _ _ => rfl

theorem check (c : Checked α) : Keeps (Evaluate.check c) := by
  cases c <;> exact fun _ _ => rfl

theorem bind (h : Keeps x) (hf : ∀ v, Keeps (f v)) : Keeps (x >>= f) := by
  intro s hproper
  have hx := h s hproper
  change (endState (EStateM.bind x f s)).store = s.store
  unfold EStateM.bind
  cases hresult : x s with
  | ok v s' =>
      rw [hresult] at hx
      exact (hf v s' (hx ▸ hproper)).trans hx
  | error e s' =>
      rw [hresult] at hx
      exact hx

theorem discard (h : Keeps x) : Keeps (Functor.discard x) := by
  intro s hproper
  have hx := h s hproper
  change (endState (EStateM.map _ x s)).store = s.store
  unfold EStateM.map
  cases hresult : x s <;> rwa [hresult] at hx

theorem value (frame : Frame) (name : Ident) : Keeps (Evaluate.value frame name) := by
  intro s _
  rw [Evaluate.value, run_get_bind]
  cases (frame.findVariable? name.val).bind fun x => s.store.top? x.qualified <;> rfl

theorem print (values : List Number) : Keeps (Evaluate.print values) := fun _ _ => rfl

end Keeps

section Expressions

variable {invoke : Invoke}

theorem arguments_keep {frame : Frame} {es : List Expr}
    (hes : ∀ e ∈ es, Keeps (expression invoke frame e)) :
    Keeps (arguments invoke frame es) := by
  induction es with
  | nil =>
      rw [arguments]
      exact .pure []
  | cons e es ih =>
      rw [arguments]
      refine (hes e List.mem_cons_self).bind fun first => ?_
      exact (ih fun e he => hes e (List.mem_cons_of_mem _ he)).bind fun rest => .pure _

theorem expression_keeps (hcalls : ∀ span f values, Keeps (invoke span f values)) (frame : Frame)
    (e : Expr) : Keeps (expression invoke frame e) := by
  induction e using Expr.induction_args with
  | number value =>
      rw [expression]
      exact .pure value
  | var name =>
      rw [expression]
      exact .value frame name
  | binary op lhs rhs ihl ihr =>
      rw [expression]
      exact ihr.bind fun right => ihl.bind fun left => .pure _
  | call name args ih =>
      rw [expression]
      refine (Keeps.check _).bind fun callee => ?_
      cases callee with
      | print => exact .check _
      | function f => exact (arguments_keep ih).bind fun values => hcalls name.span f values

theorem effect_keeps (hcalls : ∀ span f values, Keeps (invoke span f values)) (frame : Frame)
    (e : Expr) : Keeps (effect invoke frame e) := by
  have hexpression := expression_keeps hcalls frame
  cases e with
  | call name args =>
      rw [effect]
      refine (Keeps.check _).bind fun callee => ?_
      have harguments := arguments_keep fun e (_ : e ∈ args) => hexpression e
      cases callee with
      | print => exact harguments.bind fun values => .print values
      | function f => exact harguments.bind fun values => (hcalls name.span f values).discard
  | number value | «variable» name | binary op lhs rhs => exact (hexpression _).discard

end Expressions

end Evaluate

/-- The values of a body are on top of others, by the names that its frame keeps. -/
structure Owns (below : Bindings String Number) (a : Activation) : Prop where
  proper : below.Proper
  kept : ∃ xs, a.session.store = below.pushAll xs ∧
    xs.map Prod.fst = a.frame.own.map (·.qualified)

namespace Owns

variable {below : Bindings String Number} {a : Activation}

theorem fresh {session : Session} (h : session.store.Proper) {frame : Frame}
    (hown : frame.own = []) : Owns session.store ⟨frame, session⟩ :=
  ⟨h, [], rfl, by rw [hown]; rfl⟩

theorem store_proper (h : Owns below a) : a.session.store.Proper := by
  obtain ⟨xs, hstore, -⟩ := h.kept
  rw [hstore]
  exact h.proper.pushAll xs

theorem leave_store (h : Owns below a) : a.leave.store = below := by
  obtain ⟨xs, hstore, hxs⟩ := h.kept
  rw [Activation.leave, foldl_pop_eq_popAll, hstore, ← hxs, Bindings.popAll_pushAll h.proper]

/-- What a frame does not own is of no account. -/
theorem congr (h : Owns below a) {a' : Activation} (hown : a'.frame.own = a.frame.own)
    (hstore : a'.session.store = a.session.store) : Owns below a' := by
  obtain ⟨hproper, hkept⟩ := h
  rw [← hown, ← hstore] at hkept
  exact ⟨hproper, hkept⟩

theorem bind (h : Owns below a) (name : String) (value : Number) :
    Owns below (a.bind name value) := by
  obtain ⟨xs, hstore, hxs⟩ := h.kept
  refine ⟨h.proper, ((a.frame.qualify name).qualified, value) :: xs, ?_, ?_⟩
  · rw [Bindings.pushAll, ← hstore]
    rfl
  · rw [List.map_cons, hxs]
    rfl

theorem enter {session : Session} (h : session.store.Proper) (f : Closure)
    (values : List Number) : Owns session.store (Activation.enter session f values) := by
  unfold Activation.enter
  exact List.foldlRecOn (motive := Owns session.store) _ _ (.fresh h rfl)
    fun a ha given _ => ha.bind given.1.val given.2

end Owns

section Bodies

variable {invoke : Evaluate.Invoke} {below : Bindings String Number} {a : Activation}

/-- The frame is behind a statement that has not failed, and where it was if it has. A value has
been returned from a function only. -/
def Steps (below : Bindings String Number) (a : Activation) (s : Stmt) :
    EStateM.Result (Located EvalError) Activation (Option Number) → Prop
  | .ok returned a' =>
    Owns below a' ∧ a'.frame = a.frame.past s ∧ (returned.isSome → a.frame.owner.isSome)
  | .error _ a' => Owns below a' ∧ a'.frame = a.frame

/-- The frame is behind all statements if they have come to their end, and behind those at their
front if one of them has returned or failed. -/
def Gets (below : Bindings String Number) (a : Activation) (ss : List Stmt) :
    EStateM.Result (Located EvalError) Activation (Option Number) → Prop
  | .ok none a' => Owns below a' ∧ a'.frame = ss.foldl Frame.past a.frame
  | .ok (some _) a' => Owns below a' ∧ a.frame.owner.isSome
  | .error _ a' => Owns below a' ∧ ∃ k < ss.length, a'.frame = (ss.take k).foldl Frame.past a.frame

theorem Steps.of_none {s : Stmt} {a' : Activation} (h : Owns below a')
    (hframe : a'.frame = a.frame.past s) : Steps below a s (.ok none a') :=
  ⟨h, hframe, fun hsome => absurd hsome Bool.false_ne_true⟩

theorem inFrame_owns {α : Type} {act : Frame → Evaluate.Eval α}
    (hkeeps : ∀ frame, Evaluate.Keeps (act frame)) (h : Owns below a) :
    Owns below (endState (Evaluate.inFrame act a)) ∧
      (endState (Evaluate.inFrame act a)).frame = a.frame := by
  have hstore := hkeeps a.frame a.session h.store_proper
  unfold Evaluate.inFrame
  cases hresult : act a.frame a.session <;> rw [hresult] at hstore <;>
    exact ⟨h.congr rfl hstore, rfl⟩

/-- A statement that begins with an expression goes on in the frame that it began in. -/
theorem Steps.inFrame {α : Type} {act : Frame → Evaluate.Eval α} {s : Stmt}
    {next : α → Evaluate.BodyEval (Option Number)}
    (hkeeps : ∀ frame, Evaluate.Keeps (act frame)) (h : Owns below a)
    (hnext : ∀ v a', Owns below a' → a'.frame = a.frame → Steps below a s (next v a')) :
    Steps below a s ((Evaluate.inFrame act >>= next) a) := by
  obtain ⟨howns, hframe⟩ := inFrame_owns hkeeps h
  change Steps below a s (EStateM.bind _ _ a)
  unfold EStateM.bind
  cases hresult : Evaluate.inFrame act a with
  | ok v a' =>
      rw [hresult] at howns hframe
      exact hnext v a' howns hframe
  | error e a' =>
      rw [hresult] at howns hframe
      exact ⟨howns, hframe⟩

theorem statement_steps (hcalls : ∀ span f values, Evaluate.Keeps (invoke span f values))
    (h : Owns below a) (s : Stmt) : Steps below a s (Evaluate.statement invoke s a) := by
  cases s with
  | define name params body =>
      cases hparams : checkParams params with
      | error e =>
          rw [Evaluate.statement, hparams]
          exact ⟨h, rfl⟩
      | ok _ =>
          by_cases hgiven : name.val ∈ a.frame.defined
          · rw [Evaluate.define_twice hparams hgiven]
            exact ⟨h, rfl⟩
          · rw [Evaluate.define_eq hparams hgiven]
            exact .of_none (h.congr rfl rfl) rfl
  | assign target value =>
      rw [Evaluate.assign_eq]
      refine .inFrame (fun frame => Evaluate.expression_keeps hcalls frame value) h ?_
      intro v a' howns hframe
      refine .of_none (howns.bind target.val v) ?_
      rw [← hframe]
      rfl
  | giveBack value span =>
      by_cases howner : a.frame.owner = none
      · rw [Evaluate.statement, run_get_bind, howner]
        exact ⟨h, rfl⟩
      · rw [Evaluate.giveBack_eq howner]
        refine .inFrame (fun frame => Evaluate.expression_keeps hcalls frame value) h ?_
        exact fun v a' howns hframe =>
          ⟨howns, hframe, fun _ => Option.isSome_iff_ne_none.2 howner⟩
  | eval value =>
      rw [Evaluate.eval_eq]
      refine .inFrame (fun frame => Evaluate.effect_keeps hcalls frame value) h ?_
      exact fun v a' howns hframe => .of_none howns hframe

theorem owner_past (frame : Frame) (s : Stmt) : (frame.past s).owner = frame.owner := by
  cases s <;> rfl

theorem Gets.cons {a₁ : Activation} {s : Stmt} {ss : List Stmt}
    {r : EStateM.Result (Located EvalError) Activation (Option Number)}
    (hframe : a₁.frame = a.frame.past s) (h : Gets below a₁ ss r) : Gets below a (s :: ss) r := by
  cases r with
  | error e a₂ =>
      obtain ⟨howns, k, hk, hframe₂⟩ := h
      refine ⟨howns, k + 1, Nat.succ_lt_succ hk, ?_⟩
      rw [hframe₂, hframe]
      rfl
  | ok returned a₂ =>
      cases returned with
      | none =>
          obtain ⟨howns, hframe₂⟩ := h
          rw [hframe] at hframe₂
          exact ⟨howns, hframe₂⟩
      | some value =>
          obtain ⟨howns, howner⟩ := h
          rw [hframe, owner_past] at howner
          exact ⟨howns, howner⟩

theorem statements_get (hcalls : ∀ span f values, Evaluate.Keeps (invoke span f values))
    (h : Owns below a) (ss : List Stmt) : Gets below a ss (Evaluate.statements invoke ss a) := by
  induction ss generalizing a with
  | nil => exact ⟨h, rfl⟩
  | cons s ss ih =>
      have hfirst := statement_steps hcalls h s
      rw [Evaluate.statements]
      change Gets below a (s :: ss) (EStateM.bind _ _ a)
      unfold EStateM.bind
      cases hs : Evaluate.statement invoke s a with
      | error e a₁ =>
          rw [hs] at hfirst
          exact ⟨hfirst.1, 0, Nat.succ_pos _, hfirst.2⟩
      | ok returned a₁ =>
          rw [hs] at hfirst
          obtain ⟨howns, hframe, hreturned⟩ := hfirst
          cases returned with
          | some value => exact ⟨howns, hreturned rfl⟩
          | none =>
              exact (ih howns).cons hframe

/-- A call takes away what its body has bound, on every way out. -/
theorem invokeWithin_keeps (depth : Nat) (span : Span) (f : Closure) (values : List Number) :
    Evaluate.Keeps (Evaluate.invokeWithin depth span f values) := by
  induction depth generalizing span f values with
  | zero => exact fun _ _ => rfl
  | succ depth ih =>
      intro s hproper
      have hbody := statements_get ih (.enter hproper f values) f.body
      rw [Evaluate.invokeWithin_succ, Evaluate.body]
      cases hresult : Evaluate.statements (Evaluate.invokeWithin depth) f.body
          (Activation.enter s f values) with
      | error e a =>
          rw [hresult] at hbody
          exact hbody.1.leave_store
      | ok returned a =>
          rw [hresult] at hbody
          cases returned <;> exact hbody.1.leave_store

end Bodies

theorem qualified_own_past {frame : Frame} (howner : frame.owner = none) (ss : List Stmt) :
    (ss.foldl Frame.past frame).own.map (·.qualified) =
      (Program.targets ss).reverse ++ frame.own.map (·.qualified) := by
  induction ss generalizing frame with
  | nil => rfl
  | cons s ss ih =>
      rw [List.foldl_cons, ih ((owner_past frame s).trans howner)]
      cases s with
      | assign target value =>
          simp [Program.targets, Frame.past, Frame.qualify, howner]
      | define name params body | giveBack value span | eval value => rfl

theorem Session.empty_proper : Session.empty.store.Proper := Bindings.proper_empty

/-- All that is left of a program, however it ends, are the values of the assignments among the
statements that it has got through. -/
theorem Session.evaluate_adds {session : Session} (h : session.store.Proper) (program : Program) :
    ∃ k values, k ≤ program.length ∧
      ((session.evaluate program).2.isOk = true ↔ k = program.length) ∧
      values.length = (Program.targets (program.take k)).length ∧
      (session.evaluate program).1.store =
        session.store.pushAll ((Program.targets (program.take k)).zip values).reverse := by
  have hadds {k : Nat} {a : Activation} (howns : Owns session.store a)
      (hframe : a.frame = (program.take k).foldl Frame.past .topLevel) :
      ∃ values : List Number, values.length = (Program.targets (program.take k)).length ∧
        a.session.store =
          session.store.pushAll ((Program.targets (program.take k)).zip values).reverse := by
    obtain ⟨xs, hstore, hxs⟩ := howns.kept
    rw [hframe, qualified_own_past rfl, show Frame.topLevel.own = [] from rfl, List.map_nil,
      List.append_nil] at hxs
    have htargets : Program.targets (program.take k) = xs.reverse.map Prod.fst := by
      rw [List.map_reverse, hxs, List.reverse_reverse]
    have hzip := List.zip_of_prod (rfl : xs.reverse.map Prod.fst = _) rfl
    refine ⟨xs.reverse.map Prod.snd, by simp [htargets], ?_⟩
    rw [hstore, htargets, ← hzip, List.reverse_reverse]
  have hfresh : Owns session.store ⟨.topLevel, session⟩ := .fresh h rfl
  have hgets := statements_get (invokeWithin_keeps maxCallDepth) hfresh program
  unfold Session.evaluate
  cases hresult : Evaluate.statements (Evaluate.invokeWithin maxCallDepth) program
      ⟨.topLevel, session⟩ with
  | error e a =>
      rw [hresult] at hgets
      obtain ⟨howns, k, hk, hframe⟩ := hgets
      obtain ⟨values, hcount, hstore⟩ := hadds howns hframe
      exact ⟨k, values, hk.le, ⟨nofun, fun heq => absurd heq hk.ne⟩, hcount, hstore⟩
  | ok returned a =>
      rw [hresult] at hgets
      cases returned with
      | some value => cases hgets.2
      | none =>
          obtain ⟨howns, hframe⟩ := hgets
          rw [← List.take_length (l := program)] at hframe
          obtain ⟨values, hcount, hstore⟩ := hadds howns hframe
          exact ⟨program.length, values, le_rfl, ⟨fun _ => rfl, fun _ => rfl⟩, hcount, hstore⟩

namespace Counted

/-- Where an evaluator comes to: to the beginning of a program after others, past a statement, past
an expression that has a value or an error, and to the beginning of the body of a function. -/
inductive Reached : Counted Activation → Prop
  | begins (programs : List Program) : Reached
      ⟨⟨.topLevel, (fresh.evaluateAll programs).state⟩, (fresh.evaluateAll programs).depth⟩
  | passes {a a' : Counted Activation} {s : Stmt} (h : Reached a)
      (hs : statement call s a = .ok none a') : Reached a'
  | evaluates {a : Counted Activation} (h : Reached a) (e : Expr) :
      Reached (endState (inFrame (fun frame => expression call frame e) a))
  | enters {a : Counted Activation} (h : Reached a) (hdepth : a.depth < maxCallDepth) {f : Closure}
      (hf : f ∈ a.state.frame.functions) (values : List Number) :
      Reached ⟨Activation.enter a.state.session f values, a.depth + 1⟩

/-- However an evaluation ends, the values of variables are those from before, and as many calls are
open. -/
def Restores {α : Type} (x : Counting Session α) (s : Counted Session) : Prop :=
  (endState (x s)).state.store = s.state.store ∧ (endState (x s)).depth = s.depth

theorem endState_lift {σ α : Type} (y : EStateM (Located EvalError) σ α) (s : Counted σ) :
    endState (lift y s) = ⟨endState (y s.state), s.depth⟩ := by
  unfold lift
  cases y s.state <;> rfl

theorem Counts.restores {α : Type} {depth : Nat} {x : Counting Session α} {y : Evaluate.Eval α}
    (h : Counts depth x y) (hy : Evaluate.Keeps y) {session : Session}
    (hproper : session.store.Proper) : Restores x ⟨session, depth⟩ := by
  unfold Restores
  rw [h session, endState_lift]
  exact ⟨hy session hproper, rfl⟩

theorem evaluateAll_proper (programs : List Program) {session : Session}
    (h : session.store.Proper) : ∃ session', evaluateAll ⟨session, 0⟩ programs = ⟨session', 0⟩ ∧
      session'.store.Proper := by
  induction programs generalizing session with
  | nil => exact ⟨session, rfl, h⟩
  | cons program programs ih =>
      obtain ⟨k, values, -, -, -, hstore⟩ := Session.evaluate_adds h program
      unfold evaluateAll
      rw [List.foldl_cons, evaluate_eq]
      exact ih (hstore ▸ h.pushAll _)

theorem Reached.owns {a : Counted Activation} (h : Reached a) : ∃ below, Owns below a.state := by
  induction h with
  | begins programs =>
      obtain ⟨session, hall, hproper⟩ := evaluateAll_proper programs Session.empty_proper
      rw [fresh, hall]
      exact ⟨session.store, .fresh hproper rfl⟩
  | @passes a a' s _ hs ih =>
      obtain ⟨below, howns⟩ := ih
      have hsteps := statement_steps (invokeWithin_keeps (maxCallDepth - a.depth)) howns s
      rw [statement_counts (call_counts a.depth) s a.state] at hs
      unfold lift at hs
      dsimp only at hs
      cases hresult : Evaluate.statement (Evaluate.invokeWithin (maxCallDepth - a.depth)) s
          a.state with
      | error e a₁ =>
          rw [hresult] at hs
          cases hs
      | ok returned a₁ =>
          rw [hresult] at hs hsteps
          cases hs
          exact ⟨below, hsteps.1⟩
  | @evaluates a _ e ih =>
      obtain ⟨below, howns⟩ := ih
      have hcounts := Counts.inFrame (expression_counts (call_counts a.depth) · e) a.state
      have hkeeps := Evaluate.expression_keeps (invokeWithin_keeps (maxCallDepth - a.depth))
      rw [hcounts, endState_lift]
      exact ⟨below, (inFrame_owns (hkeeps · e) howns).1⟩
  | enters _ _ hf values ih =>
      obtain ⟨below, howns⟩ := ih
      exact ⟨_, .enter howns.store_proper _ values⟩

/-- Wherever an evaluator comes to, an expression or a call leaves the values of variables and the
number of open calls as they are, whether it has a value, is refused or calls too deep. Behind every
program no call is open, and all that the program has added are the values of its assignments, up to
the statement that it failed in. -/
theorem restores_store :
    (∀ a, Reached a →
      (∀ e, Restores (expression call a.state.frame e) ⟨a.state.session, a.depth⟩) ∧
      (∀ e, Restores (effect call a.state.frame e) ⟨a.state.session, a.depth⟩) ∧
      ∀ span f values, Restores (call span f values) ⟨a.state.session, a.depth⟩) ∧
    ∀ programs program,
      let before := fresh.evaluateAll programs
      let after := before.evaluate program
      after.1.depth = 0 ∧
        ∃ k values, k ≤ program.length ∧ (after.2.isOk = true ↔ k = program.length) ∧
          values.length = (Program.targets (program.take k)).length ∧
          after.1.state.store = before.state.store.pushAll
            ((Program.targets (program.take k)).zip values).reverse := by
  constructor
  · intro a ha
    obtain ⟨below, howns⟩ := ha.owns
    have hcalls := call_counts a.depth
    have hkeeps := invokeWithin_keeps (maxCallDepth - a.depth)
    refine ⟨fun e => ?_, fun e => ?_, fun span f values => ?_⟩
    · exact (expression_counts hcalls _ e).restores
        (Evaluate.expression_keeps hkeeps _ e) howns.store_proper
    · exact (effect_counts hcalls _ e).restores (Evaluate.effect_keeps hkeeps _ e)
        howns.store_proper
    · exact (hcalls span f values).restores (hkeeps span f values) howns.store_proper
  · intro programs program
    obtain ⟨session, hall, hproper⟩ := evaluateAll_proper programs Session.empty_proper
    dsimp only
    rw [fresh, hall, evaluate_eq]
    exact ⟨rfl, Session.evaluate_adds hproper program⟩

/-- The program `def f(x) { return f(x); } x = 0; x = f(x);`. -/
def descent : Program :=
  [.define ⟨"f", 4, 5⟩ [⟨"x", 6, 7⟩] [.giveBack again ⟨11, 23⟩],
    .assign ⟨"x", 26, 27⟩ (.number .zero),
    .assign ⟨"x", 33, 34⟩ (.call ⟨"f", 37, 38⟩ [.variable ⟨"x", 39, 40⟩])]
where
  again : Expr := .call ⟨"f", 18, 19⟩ [.variable ⟨"x", 20, 21⟩]

/-- The function that the program defines. -/
def descent.f : Closure :=
  Frame.topLevel.closure ⟨"f", 4, 5⟩ [⟨"x", 6, 7⟩] [.giveBack again ⟨11, 23⟩]

/-- Inside its first call the function calls itself too deep. Its parameter and the variable of the
program are bound then as they were, and the program has bound the variable once. -/
theorem descent_restores : ∃ a, Reached a ∧ a.depth = 1 ∧
    Restores (expression call a.state.frame descent.again) ⟨a.state.session, a.depth⟩ ∧
    (fresh.evaluate descent).2 = .error ⟨.tooDeep, 18, 19⟩ ∧
    (fresh.evaluate descent).1.depth = 0 ∧
    ∃ k values, k ≤ descent.length ∧
      ((fresh.evaluate descent).2.isOk = true ↔ k = descent.length) ∧
      values.length = (Program.targets (descent.take k)).length ∧
      (fresh.evaluate descent).1.state.store = fresh.state.store.pushAll
        ((Program.targets (descent.take k)).zip values).reverse := by
  have hreached := Reached.enters (.passes (.passes (.begins [])
    (s := descent[0]) rfl) (s := descent[1]) rfl) (by decide)
    (f := descent.f) (.head _) [.zero]
  have hdeep : (fresh.evaluate descent).2 = .error ⟨.tooDeep, 18, 19⟩ := by decide +kernel
  have hbefore : fresh.evaluateAll [] = fresh := rfl
  obtain ⟨hdepth, hadds⟩ := restores_store.2 [] descent
  rw [hbefore] at hdepth hadds
  exact ⟨_, hreached, rfl, (restores_store.1 _ hreached).1 descent.again, hdeep, hdepth, hadds⟩

end Counted

end StackCalc
