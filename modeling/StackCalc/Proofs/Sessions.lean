import StackCalc.Proofs.Restoring

/-!
# Programs one after another

What earlier programs leave in a session is no more than values under names, and what they print.
A program reads values only by the names of its own frames, each of which it has bound itself
before, and so it reads, prints and comes to what it would in a session of its own.
-/

namespace StackCalc

open Source

section Results

variable {ε σ α β : Type} {R : σ → σ → Prop}

/-- Two computations have come to the same value or the same error, and to related states. -/
def EndAlike (R : σ → σ → Prop) : EStateM.Result ε σ α → EStateM.Result ε σ α → Prop
  | .ok v s, .ok w t => v = w ∧ R s t
  | .error e s, .error e' t => e = e' ∧ R s t
  | .ok _ _, .error _ _ | .error _ _, .ok _ _ => False

namespace EndAlike

variable {x : EStateM ε σ α} {f : α → EStateM ε σ β} {s t : σ}

theorem bind (h : EndAlike R (x s) (x t))
    (hf : ∀ v s' t', R s' t' → EndAlike R (f v s') (f v t')) :
    EndAlike R ((x >>= f) s) ((x >>= f) t) := by
  change EndAlike R (EStateM.bind x f s) (EStateM.bind x f t)
  unfold EStateM.bind
  cases hs : x s <;> cases ht : x t <;> rw [hs, ht] at h
  case ok.ok v s' w t' =>
    obtain ⟨rfl, hrelated⟩ := h
    exact hf v s' t' hrelated
  case error.error => exact h
  all_goals exact h.elim

theorem discard (h : EndAlike R (x s) (x t)) :
    EndAlike R ((Functor.discard x : EStateM ε σ Unit) s) (Functor.discard x t) := by
  change EndAlike R (EStateM.map _ x s) (EStateM.map _ x t)
  unfold EStateM.map
  cases hs : x s <;> cases ht : x t <;> rw [hs, ht] at h
  case ok.ok => exact ⟨rfl, h.2⟩
  case error.error => exact h
  all_goals exact h.elim

end EndAlike

variable {c : Checked α} {next : α → EStateM (Located EvalError) σ β} {s t : σ}

theorem EndAlike.check (h : R s t) :
    EndAlike R (Evaluate.check c s) (Evaluate.check c t) := by
  cases c <;> exact ⟨rfl, h⟩

/-- What is behind a check matters only if the check lets it pass. -/
theorem EndAlike.checked (h : R s t)
    (hnext : ∀ v, c = .ok v → EndAlike R (next v s) (next v t)) :
    EndAlike R ((Evaluate.check c >>= next) s) ((Evaluate.check c >>= next) t) := by
  cases c with
  | error e => exact ⟨rfl, h⟩
  | ok v => exact hnext v rfl

end Results

/-- A function that sees all variables which the functions visible to it see. -/
inductive Closure.Nested : Closure → Prop
  | intro {f : Closure} (captured : ∀ g ∈ f.functions, g.vars ⊆ f.vars)
      (functions : ∀ g ∈ f.functions, g.Nested) : Nested f

/-- A frame reads the same from two stores, and so do the frames of the functions it sees. -/
structure Reads (frame : Frame) (kept alone : Bindings String Number) : Prop where
  keptProper : kept.Proper
  aloneProper : alone.Proper
  captured : ∀ f ∈ frame.functions, f.vars ⊆ frame.vars
  nested : ∀ f ∈ frame.functions, f.Nested
  values : ∀ x ∈ frame.vars, kept.top? x.qualified = alone.top? x.qualified

namespace Reads

variable {frame : Frame} {kept alone : Bindings String Number}

theorem topLevel (hkept : kept.Proper) : Reads .topLevel kept ∅ :=
  ⟨hkept, Bindings.proper_empty, nofun, nofun, nofun⟩

theorem lookup (h : Reads frame kept alone) (name : String) :
    ((frame.findVariable? name).bind fun x => kept.top? x.qualified) =
      (frame.findVariable? name).bind fun x => alone.top? x.qualified := by
  cases hfound : frame.findVariable? name with
  | none => rfl
  | some x => exact h.values x (List.mem_of_find?_eq_some hfound)

/-- A function that a frame sees begins with variables that the frame sees. -/
theorem inside (h : Reads frame kept alone) {f : Closure} (hf : f ∈ frame.functions) :
    Reads (.ofClosure f) kept alone := by
  obtain ⟨hcaptured, hnested⟩ := h.nested f hf
  refine ⟨h.keptProper, h.aloneProper, ?_, ?_, fun x hx => h.values x (h.captured f hf hx)⟩
  · exact List.forall_mem_cons.2 ⟨List.Subset.refl _, hcaptured⟩
  · exact List.forall_mem_cons.2 ⟨h.nested f hf, hnested⟩

theorem define (h : Reads frame kept alone) (name : Ident) (params : List Ident)
    (body : List Stmt) : Reads (frame.define name params body) kept alone :=
  ⟨h.keptProper, h.aloneProper, List.forall_mem_cons.2 ⟨List.Subset.refl _, h.captured⟩,
    List.forall_mem_cons.2 ⟨.intro h.captured h.nested, h.nested⟩, h.values⟩

/-- A value that is bound in both stores is read from both. -/
theorem bind (h : Reads frame kept alone) (x : ScopedName) (value : Number) :
    Reads { frame with own := x :: frame.own } (kept.push x.qualified value)
      (alone.push x.qualified value) := by
  refine ⟨h.keptProper.push _ _, h.aloneProper.push _ _, ?_, h.nested, ?_⟩
  · exact fun f hf => List.Subset.trans (h.captured f hf) (List.subset_cons_self _ _)
  · intro y hy
    unfold Bindings.top?
    rw [Bindings.stack_push, Bindings.stack_push]
    split
    · rfl
    · next hne =>
        rcases List.mem_cons.1 hy with rfl | hy
        · exact absurd rfl hne
        · exact h.values y hy

end Reads

/-- Each session has the values that it had, and one has printed what the other has, behind what was
printed before. -/
def Beside (before : Array Number) (kept alone : Bindings String Number) (s t : Session) : Prop :=
  s.store = kept ∧ t.store = alone ∧ s.printed = before ++ t.printed

/-- One frame runs in two sessions, from which it reads the same. -/
structure Along (before : Array Number) (a b : Activation) : Prop where
  frame : a.frame = b.frame
  reads : Reads a.frame a.session.store b.session.store
  printed : a.session.printed = before ++ b.session.printed

/-- Calls come to the same in both sessions, and leave the values as they are. -/
def CallsAlike (before : Array Number) (invoke : Evaluate.Invoke) : Prop :=
  ∀ span f values (s t : Session), Reads (.ofClosure f) s.store t.store →
    s.printed = before ++ t.printed →
    EndAlike (Beside before s.store t.store) (invoke span f values s) (invoke span f values t)

section Expressions

variable {before : Array Number} {invoke : Evaluate.Invoke} {frame : Frame}
  {kept alone : Bindings String Number} {s t : Session}

theorem value_alike (hreads : Reads frame kept alone) (h : Beside before kept alone s t)
    (name : Ident) : EndAlike (Beside before kept alone) (Evaluate.value frame name s)
      (Evaluate.value frame name t) := by
  have hlookup := hreads.lookup name.val
  obtain ⟨rfl, rfl, -⟩ := id h
  rw [Evaluate.value, run_get_bind, run_get_bind, hlookup]
  cases (frame.findVariable? name.val).bind fun x => t.store.top? x.qualified with
  | none => exact .check h
  | some value => exact ⟨rfl, h⟩

theorem arguments_alike {es : List Expr}
    (hes : ∀ e ∈ es, ∀ s t, Beside before kept alone s t →
      EndAlike (Beside before kept alone) (Evaluate.expression invoke frame e s)
        (Evaluate.expression invoke frame e t))
    (h : Beside before kept alone s t) :
    EndAlike (Beside before kept alone) (Evaluate.arguments invoke frame es s)
      (Evaluate.arguments invoke frame es t) := by
  induction es generalizing s t with
  | nil =>
      rw [Evaluate.arguments]
      exact ⟨rfl, h⟩
  | cons e es ih =>
      rw [Evaluate.arguments]
      refine (hes e List.mem_cons_self s t h).bind fun first s₁ t₁ h₁ => ?_
      refine (ih (fun e he => hes e (List.mem_cons_of_mem _ he)) h₁).bind fun rest s₂ t₂ h₂ => ?_
      exact ⟨rfl, h₂⟩

theorem call_alike (hcalls : CallsAlike before invoke) (hreads : Reads frame kept alone)
    (h : Beside before kept alone s t) {f : Closure} (hf : f ∈ frame.functions) (span : Span)
    (values : List Number) :
    EndAlike (Beside before kept alone) (invoke span f values s) (invoke span f values t) := by
  obtain ⟨rfl, rfl, hprinted⟩ := h
  exact hcalls span f values s t (hreads.inside hf) hprinted

theorem mem_of_callee {name : Ident} {count : Nat} {f : Closure}
    (h : Evaluate.callee frame name count = .ok (.function f)) : f ∈ frame.functions :=
  List.mem_of_find?_eq_some (Callee.resolve_function h).1

theorem expression_alike (hcalls : CallsAlike before invoke) (hreads : Reads frame kept alone)
    (e : Expr) (h : Beside before kept alone s t) :
    EndAlike (Beside before kept alone) (Evaluate.expression invoke frame e s)
      (Evaluate.expression invoke frame e t) := by
  induction e using Expr.induction_args generalizing s t with
  | number value =>
      rw [Evaluate.expression]
      exact ⟨rfl, h⟩
  | var name =>
      rw [Evaluate.expression]
      exact value_alike hreads h name
  | binary op lhs rhs ihl ihr =>
      rw [Evaluate.expression]
      refine (ihr h).bind fun right s₁ t₁ h₁ => ?_
      exact (ihl h₁).bind fun left s₂ t₂ h₂ => ⟨rfl, h₂⟩
  | call name args ih =>
      rw [Evaluate.expression]
      refine .checked h fun callee hcallee => ?_
      cases callee with
      | print => exact .check h
      | function f =>
          refine (arguments_alike (fun e he _ _ => ih e he) h).bind fun values s₁ t₁ h₁ => ?_
          exact call_alike hcalls hreads h₁ (mem_of_callee hcallee) name.span values

theorem effect_alike (hcalls : CallsAlike before invoke) (hreads : Reads frame kept alone)
    (e : Expr) (h : Beside before kept alone s t) :
    EndAlike (Beside before kept alone) (Evaluate.effect invoke frame e s)
      (Evaluate.effect invoke frame e t) := by
  cases e with
  | call name args =>
      rw [Evaluate.effect]
      refine .checked h fun callee hcallee => ?_
      have harguments := arguments_alike
        (fun e (_ : e ∈ args) _ _ => expression_alike hcalls hreads e) h
      cases callee with
      | print =>
          refine harguments.bind fun values s₁ t₁ h₁ => ?_
          obtain ⟨hkept, halone, hprinted⟩ := h₁
          refine ⟨rfl, hkept, halone, ?_⟩
          exact Array.ext' (by simp [hprinted])
      | function f =>
          refine harguments.bind fun values s₁ t₁ h₁ => EndAlike.discard ?_
          exact call_alike hcalls hreads h₁ (mem_of_callee hcallee) name.span values
  | number value | «variable» name | binary op lhs rhs =>
      exact (expression_alike hcalls hreads _ h).discard

end Expressions

section Bodies

variable {before : Array Number} {invoke : Evaluate.Invoke} {a b : Activation}

theorem Along.inFrame {α : Type} {act : Frame → Evaluate.Eval α}
    (h : Along before a b)
    (hact : ∀ frame, Reads frame a.session.store b.session.store →
      EndAlike (Beside before a.session.store b.session.store) (act frame a.session)
        (act frame b.session)) :
    EndAlike (Along before) (Evaluate.inFrame act a) (Evaluate.inFrame act b) := by
  obtain ⟨hframe, hreads, hprinted⟩ := h
  have halike := hact a.frame hreads
  unfold Evaluate.inFrame
  rw [← hframe]
  cases hs : act a.frame a.session <;> cases ht : act a.frame b.session <;>
    rw [hs, ht] at halike
  case ok.ok | error.error =>
    obtain ⟨heq, hkept, halone, hprinted⟩ := halike
    exact ⟨heq, rfl, by rwa [hkept, halone], hprinted⟩
  all_goals exact halike.elim

theorem Along.bind (h : Along before a b) (name : String) (value : Number) :
    Along before (a.bind name value) (b.bind name value) := by
  obtain ⟨hframe, hreads, hprinted⟩ := h
  unfold Activation.bind
  rw [← hframe]
  exact ⟨rfl, hreads.bind _ value, hprinted⟩

theorem Along.enter {s t : Session} {f : Closure} (hreads : Reads (.ofClosure f) s.store t.store)
    (hprinted : s.printed = before ++ t.printed) (values : List Number) :
    Along before (Activation.enter s f values) (Activation.enter t f values) := by
  have hbegins : Along before ⟨.ofClosure f, s⟩ ⟨.ofClosure f, t⟩ := ⟨rfl, hreads, hprinted⟩
  unfold Activation.enter
  exact List.foldl_rel (r := Along before) hbegins fun given _ a b h => h.bind given.1.val given.2

theorem statement_alike (hcalls : CallsAlike before invoke) (h : Along before a b) (s : Stmt) :
    EndAlike (Along before) (Evaluate.statement invoke s a) (Evaluate.statement invoke s b) := by
  cases s with
  | define name params body =>
      cases hparams : checkParams params with
      | error e =>
          rw [Evaluate.statement, hparams]
          exact ⟨rfl, h⟩
      | ok _ =>
          by_cases hgiven : name.val ∈ a.frame.defined
          · have hgiven' : name.val ∈ b.frame.defined := h.frame ▸ hgiven
            rw [Evaluate.define_twice hparams hgiven, Evaluate.define_twice hparams hgiven']
            exact ⟨rfl, h⟩
          · have hgiven' : name.val ∉ b.frame.defined := h.frame ▸ hgiven
            rw [Evaluate.define_eq hparams hgiven, Evaluate.define_eq hparams hgiven', ← h.frame]
            exact ⟨rfl, rfl, h.reads.define name params body, h.printed⟩
  | assign target value =>
      rw [Evaluate.assign_eq]
      refine (h.inFrame fun frame hreads => expression_alike hcalls hreads value
        ⟨rfl, rfl, h.printed⟩).bind fun v a₁ b₁ h₁ => ?_
      exact ⟨rfl, h₁.bind target.val v⟩
  | giveBack value span =>
      by_cases howner : a.frame.owner = none
      · rw [Evaluate.statement, run_get_bind, run_get_bind, ← h.frame, howner]
        exact ⟨rfl, h⟩
      · rw [Evaluate.giveBack_eq howner, Evaluate.giveBack_eq (h.frame ▸ howner)]
        refine (h.inFrame fun frame hreads => expression_alike hcalls hreads value
          ⟨rfl, rfl, h.printed⟩).bind fun v a₁ b₁ h₁ => ?_
        exact ⟨rfl, h₁⟩
  | eval value =>
      rw [Evaluate.eval_eq]
      refine (h.inFrame fun frame hreads => effect_alike hcalls hreads value
        ⟨rfl, rfl, h.printed⟩).bind fun v a₁ b₁ h₁ => ?_
      exact ⟨rfl, h₁⟩

theorem statements_alike (hcalls : CallsAlike before invoke) (h : Along before a b)
    (ss : List Stmt) :
    EndAlike (Along before) (Evaluate.statements invoke ss a)
      (Evaluate.statements invoke ss b) := by
  induction ss generalizing a b with
  | nil => exact ⟨rfl, h⟩
  | cons s ss ih =>
      rw [Evaluate.statements]
      refine (statement_alike hcalls h s).bind fun returned a₁ b₁ h₁ => ?_
      cases returned with
      | some value => exact ⟨rfl, h₁⟩
      | none => exact ih h₁

theorem invokeWithin_alike (before : Array Number) (depth : Nat) :
    CallsAlike before (Evaluate.invokeWithin depth) := by
  induction depth with
  | zero => exact fun span f values s t _ hprinted => ⟨rfl, rfl, rfl, hprinted⟩
  | succ depth ih =>
      intro span f values s t hreads hprinted
      have hbody := statements_alike ih (.enter hreads hprinted values) f.body
      have hkept := invokeWithin_keeps (depth + 1) span f values s hreads.keptProper
      have halone := invokeWithin_keeps (depth + 1) span f values t hreads.aloneProper
      simp only [Evaluate.invokeWithin_succ, Evaluate.body] at hkept halone ⊢
      cases hs : Evaluate.statements (Evaluate.invokeWithin depth) f.body
          (Activation.enter s f values) <;>
        cases ht : Evaluate.statements (Evaluate.invokeWithin depth) f.body
          (Activation.enter t f values) <;>
        rw [hs, ht] at hbody <;> rw [hs] at hkept <;> rw [ht] at halone
      case ok.ok =>
        obtain ⟨rfl, halong⟩ := hbody
        exact ⟨rfl, hkept, halone, halong.printed⟩
      case error.error => exact ⟨hbody.1, hkept, halone, hbody.2.printed⟩
      all_goals exact hbody.elim

end Bodies

/-- A program comes to the same in a session that goes on as in one of its own, and adds what it
prints there to what has been printed. -/
theorem Session.evaluate_alike {session : Session} (h : session.store.Proper) (program : Program) :
    (session.evaluate program).2 = (Session.empty.evaluate program).2 ∧
      (session.evaluate program).1.printed =
        session.printed ++ (Session.empty.evaluate program).1.printed := by
  have hbegin : Along session.printed ⟨.topLevel, session⟩ ⟨.topLevel, .empty⟩ :=
    ⟨rfl, .topLevel h, Array.append_empty.symm⟩
  have halike := statements_alike (invokeWithin_alike _ maxCallDepth) hbegin program
  unfold Session.evaluate
  cases hs : Evaluate.statements (Evaluate.invokeWithin maxCallDepth) program
      ⟨.topLevel, session⟩ <;>
    cases ht : Evaluate.statements (Evaluate.invokeWithin maxCallDepth) program
      ⟨.topLevel, .empty⟩ <;>
    rw [hs, ht] at halike
  case ok.ok => exact ⟨rfl, halike.2.printed⟩
  case error.error => exact ⟨congrArg Except.error halike.1, halike.2.printed⟩
  all_goals exact halike.elim

namespace Counted

/-- What a program comes to, and what it prints. -/
def outcome (s : Counted Session) (program : Program) :
    Except (Located EvalError) Unit × List Number :=
  let (after, result) := s.evaluate program
  (result, after.state.printed.toList.drop s.state.printed.size)

/-- What programs come to that are evaluated in turn, whatever the outcome, and what each prints. -/
def outcomes (s : Counted Session) : List Program →
    List (Except (Located EvalError) Unit × List Number)
  | [] => []
  | program :: programs => s.outcome program :: (s.evaluate program).1.outcomes programs

theorem outcome_fresh (program : Program) : fresh.outcome program =
    ((Session.empty.evaluate program).2, (Session.empty.evaluate program).1.printed.toList) := by
  rw [outcome, fresh, evaluate_eq]
  rfl

theorem outcome_eq {session : Session} (h : session.store.Proper) (program : Program) :
    outcome ⟨session, 0⟩ program = fresh.outcome program := by
  obtain ⟨hresult, hprinted⟩ := Session.evaluate_alike h program
  rw [outcome_fresh, outcome, evaluate_eq]
  dsimp only
  rw [hresult, hprinted]
  simp

theorem outcomes_eq (programs : List Program) {session : Session} (h : session.store.Proper) :
    outcomes ⟨session, 0⟩ programs = programs.map fresh.outcome ∧
      (evaluateAll ⟨session, 0⟩ programs).state.printed.toList =
        session.printed.toList ++ programs.flatMap fun program => (fresh.outcome program).2 := by
  induction programs generalizing session with
  | nil => exact ⟨rfl, (List.append_nil _).symm⟩
  | cons program programs ih =>
      obtain ⟨k, values, -, -, -, hstore⟩ := Session.evaluate_adds h program
      obtain ⟨-, hprinted⟩ := Session.evaluate_alike h program
      have hproper : (session.evaluate program).1.store.Proper := hstore ▸ h.pushAll _
      obtain ⟨houtcomes, hall⟩ := ih hproper
      unfold evaluateAll at hall ⊢
      rw [outcomes, outcome_eq h, List.map_cons, List.flatMap_cons, List.foldl_cons, evaluate_eq,
        houtcomes, hall, hprinted, outcome_fresh]
      simp

/-- Programs that one evaluator evaluates in turn come to what each of them comes to in an evaluator
of its own, which is what evaluating without a counter comes to, and print what they print there. -/
theorem outcomes_alone (programs : List Program) :
    fresh.outcomes programs = programs.map fresh.outcome ∧
      (fresh.evaluateAll programs).state.printed.toList =
        (programs.flatMap fun program => (fresh.outcome program).2) ∧
      ∀ program, fresh.outcome program = ((Session.empty.evaluate program).2,
        (Session.empty.evaluate program).1.printed.toList) := by
  obtain ⟨houtcomes, hprinted⟩ := outcomes_eq programs Session.empty_proper
  exact ⟨houtcomes, hprinted, outcome_fresh⟩

end Counted

end StackCalc
