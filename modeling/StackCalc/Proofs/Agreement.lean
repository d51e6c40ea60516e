import StackCalc.Proofs.CallGraph
import StackCalc.Proofs.Calls

/-!
# Checks that compiling and evaluating share

Evaluation of a text ends as compiling it does, with the same error where there is one, unless it
calls too deep; and it calls too deep exactly where a function that the text calls does not come to
an end inside the limit. What is asked of a function for its calls to be like that is that it has
been compiled, and that the variables it sees have values.
-/

namespace StackCalc

open Source

/-- A check and an evaluation have ended alike, or a call of one of some functions has not gone
through. -/
def Agrees {σ α β : Type} (calls : List Closure) (P : Closure → Prop) (Q : β → α → σ → Prop)
    (checked : Checked β) : EStateM.Result (Located EvalError) σ α → Prop
  | .ok x s => (∀ g ∈ calls, P g) ∧ ∃ b, checked = .ok b ∧ Q b x s
  | .error e _ => (e.val = .tooDeep ∧ ∃ g ∈ calls, ¬ P g) ∨
    ∃ refusal, checked = .error refusal ∧ e = ⟨.program refusal.val, refusal.span⟩

namespace Agrees

variable {σ α α' β β' : Type} {calls later : List Closure} {P : Closure → Prop}
  {Q : β → α → σ → Prop} {Q' : β' → α' → σ → Prop} {checked : Checked β}
  {next : β → Checked β'} {x : EStateM (Located EvalError) σ α}
  {f : α → EStateM (Located EvalError) σ α'} {s : σ}

theorem bind (h : Agrees calls P Q checked (x s))
    (hf : ∀ b v s', checked = .ok b → Q b v s' → Agrees later P Q' (next b) (f v s')) :
    Agrees (calls ++ later) P Q' (checked >>= next) ((x >>= f) s) := by
  change Agrees _ P Q' _ (EStateM.bind x f s)
  unfold EStateM.bind
  cases hx : x s with
  | ok v s' =>
      rw [hx] at h
      obtain ⟨hcalls, b, hb, hq⟩ := h
      have hlater := hf b v s' hb hq
      rw [hb]
      change Agrees _ P Q' (next b) (f v s')
      cases hfv : f v s' with
      | ok w s'' =>
          rw [hfv] at hlater
          obtain ⟨hcalls', hrest⟩ := hlater
          exact ⟨fun g hg => (List.mem_append.1 hg).elim (hcalls g) (hcalls' g), hrest⟩
      | error e s'' =>
          rw [hfv] at hlater
          rcases hlater with ⟨he, g, hg, hdeep⟩ | herror
          · exact .inl ⟨he, g, List.mem_append_right _ hg, hdeep⟩
          · exact .inr herror
  | error e s' =>
      rw [hx] at h
      rcases h with ⟨he, g, hg, hdeep⟩ | ⟨refusal, hrefusal, he⟩
      · exact .inl ⟨he, g, List.mem_append_left _ hg, hdeep⟩
      · refine .inr ⟨refusal, ?_, he⟩
        rw [hrefusal]
        rfl

theorem pure {b : β} {v : α} (h : Q b v s) :
    Agrees [] P Q (.ok b) ((pure v : EStateM (Located EvalError) σ α) s) :=
  ⟨List.forall_mem_nil _, b, rfl, h⟩

theorem error {e : Located CompileError} :
    Agrees calls P Q (.error e)
      ((Evaluate.check (.error e) : EStateM (Located EvalError) σ α) s) := .inr ⟨e, rfl, rfl⟩

/-- What is done behind an evaluation without any more calls. -/
theorem andThen (h : Agrees calls P Q checked (x s))
    (hf : ∀ b v s', checked = .ok b → Q b v s' → Agrees [] P Q' (next b) (f v s')) :
    Agrees calls P Q' (checked >>= next) ((x >>= f) s) := by
  have hbind := h.bind hf
  rwa [List.append_nil] at hbind

/-- Another check that goes through where the first does, and has the same errors. -/
theorem imp {Q' : β' → α → σ → Prop} {checked' : Checked β'}
    {r : EStateM.Result (Located EvalError) σ α} (h : Agrees calls P Q checked r)
    (hok : ∀ b v s', checked = .ok b → Q b v s' → ∃ b', checked' = .ok b' ∧ Q' b' v s')
    (herror : ∀ e, checked = .error e → checked' = .error e) :
    Agrees calls P Q' checked' r := by
  cases r with
  | ok v s' =>
      obtain ⟨hcalls, b, hb, hq⟩ := h
      exact ⟨hcalls, hok b v s' hb hq⟩
  | error e s' =>
      rcases h with hdeep | ⟨refusal, hrefusal, he⟩
      · exact .inl hdeep
      · exact .inr ⟨refusal, herror refusal hrefusal, he⟩

/-- The check goes on without the evaluation. -/
theorem map {Q' : β' → α → σ → Prop} {r : EStateM.Result (Located EvalError) σ α}
    (h : Agrees calls P Q checked r) (g : β → β')
    (hok : ∀ b v s', checked = .ok b → Q b v s' → Q' (g b) v s') :
    Agrees calls P Q' (checked >>= fun b => .ok (g b)) r := by
  refine h.imp (fun b v s' hb hq => ⟨g b, ?_, hok b v s' hb hq⟩) fun e he => ?_
  · rw [hb]
    rfl
  · rw [he]
    rfl

theorem discard (h : Agrees calls P Q checked (x s)) :
    Agrees calls P (fun b (_ : Unit) s' => ∃ v, Q b v s') checked
      ((Functor.discard x : EStateM (Located EvalError) σ Unit) s) := by
  change Agrees _ P _ _ (EStateM.map _ x s)
  unfold EStateM.map
  cases hx : x s with
  | ok v s' =>
      rw [hx] at h
      obtain ⟨hcalls, b, hb, hq⟩ := h
      exact ⟨hcalls, b, hb, v, hq⟩
  | error e s' =>
      rw [hx] at h
      exact h

end Agrees

/-- A function that has been compiled, and so has every function visible to it, whose variables it
sees too. -/
inductive Compiled : Closure → Prop
  | intro {f : Closure} {scopes last : Scopes} {lines : List Assembly.Line}
      (distinct : checkParams f.params = .ok ())
      (matched : Matches scopes (.ofClosure f))
      (body : Compile.statements (scopes.grow (scopes.qualifyAll f.params) [] []) f.body =
        .ok (lines, last))
      (functions : ∀ g ∈ f.functions, Compiled g)
      (captured : ∀ g ∈ f.functions, g.vars ⊆ f.vars) : Compiled f

/-- A frame that sees what the scopes see, all of it compiled and all variables with values. -/
structure Steady (scopes : Scopes) (frame : Frame) (store : Bindings String Number) : Prop where
  matched : Matches scopes frame
  compiled : ∀ f ∈ frame.functions, Compiled f
  captured : ∀ f ∈ frame.functions, f.vars ⊆ frame.vars
  live : ∀ x ∈ frame.vars, store.stack x.qualified ≠ []
  proper : store.Proper

/-- Calls of functions that have been compiled leave the values of variables as they are, unless
they call too deep. -/
def CallsAgree (P : Closure → Prop) (invoke : Evaluate.Invoke) : Prop :=
  ∀ span f values session, Compiled f → values.length = f.params.length →
    (∀ x ∈ f.vars, session.store.stack x.qualified ≠ []) → session.store.Proper →
    Agrees [f] P (fun (_ : Unit) _ s => s.store = session.store) (.ok ())
      (invoke span f values session)

section Expressions

variable {P : Closure → Prop} {invoke : Evaluate.Invoke} {scopes : Scopes} {frame : Frame}
  {session : Session}

theorem Matches.callee (h : Matches scopes frame) (name : Ident) (count : Nat) :
    (∃ e, Compile.callee scopes name count = .error e ∧
      Evaluate.callee frame name count = .error e) ∨
    (frame.findFunction? name.val = none ∧ Compile.callee scopes name count = .ok .print ∧
      Evaluate.callee frame name count = .ok .print) ∨
    ∃ g, frame.findFunction? name.val = some g ∧ g.params.length = count ∧
      Compile.callee scopes name count = .ok (.function g.entry) ∧
      Evaluate.callee frame name count = .ok (.function g) := by
  unfold Compile.callee Evaluate.callee
  rw [← h.findFunction?]
  cases hfound : frame.findFunction? name.val with
  | none =>
      by_cases hname : name.val = printName
      · by_cases hcount : count = 1
        · refine .inr (.inl ⟨rfl, ?_, ?_⟩) <;>
            simp [Callee.resolve, Callee.ofName?, hname, hcount]
        · refine .inl ⟨⟨.arityMismatch name.val 1 count, name.span⟩, ?_, ?_⟩ <;>
            simp [Callee.resolve, Callee.ofName?, hname, hcount, refuse]
      · refine .inl ⟨⟨.unknownFunction name.val, name.span⟩, ?_, ?_⟩ <;>
          simp [Callee.resolve, Callee.ofName?, hname, refuse]
  | some g =>
      by_cases hcount : count = g.params.length
      · refine .inr (.inr ⟨g, rfl, hcount.symm, ?_, ?_⟩) <;>
          simp [Callee.resolve, Callee.ofName?, hcount, Closure.entry]
      · refine .inl ⟨⟨.arityMismatch name.val g.params.length count, name.span⟩, ?_, ?_⟩ <;>
          simp [Callee.resolve, Callee.ofName?, hcount, Closure.entry, refuse]

theorem variable_agrees (h : Steady scopes frame session.store) (name : Ident) :
    Agrees [] P (fun _ _ s => s.store = session.store)
      (Compile.expression scopes (.variable name)) (Evaluate.value frame name session) := by
  rw [Compile.expression, ← h.matched.vars, Evaluate.value, run_get_bind]
  cases hx : frame.findVariable? name.val with
  | none => exact Agrees.error
  | some x =>
      have hlive := h.live x (List.mem_of_find?_eq_some hx)
      obtain ⟨value, rest, hstack⟩ := List.exists_cons_of_ne_nil hlive
      rw [Option.bind_some, Bindings.top?, hstack]
      exact Agrees.pure rfl

/-- The text of an expression agrees with what it is evaluated to, in any session that is seen. -/
def ExpressionAgrees (P : Closure → Prop) (invoke : Evaluate.Invoke) (scopes : Scopes)
    (frame : Frame) (e : Expr) : Prop :=
  ∀ session, Steady scopes frame session.store →
    Agrees (e.calls frame) P (fun _ _ s => s.store = session.store)
      (Compile.expression scopes e) (Evaluate.expression invoke frame e session)

theorem arguments_agree {es : List Expr}
    (hes : ∀ e ∈ es, ExpressionAgrees P invoke scopes frame e)
    (h : Steady scopes frame session.store) :
    Agrees (Expr.callsOfAll frame es) P
      (fun _ vs s => vs.length = es.length ∧ s.store = session.store)
      (Compile.arguments scopes es) (Evaluate.arguments invoke frame es session) := by
  induction es generalizing session with
  | nil =>
      rw [Compile.arguments, Evaluate.arguments]
      exact Agrees.pure ⟨rfl, rfl⟩
  | cons e es ih =>
      rw [Compile.arguments, Evaluate.arguments, Expr.callsOfAll]
      refine (hes e List.mem_cons_self session h).bind fun first v s₁ _ hstore₁ => ?_
      have hlater := ih (fun x hx => hes x (List.mem_cons_of_mem _ hx)) (hstore₁ ▸ h)
      refine hlater.andThen fun rest vs s₂ _ hend => ?_
      obtain ⟨hlength, hstore₂⟩ := hend
      exact Agrees.pure ⟨congrArg Nat.succ hlength, hstore₂.trans hstore₁⟩

theorem call_agrees (hcalls : CallsAgree P invoke) {args : List Expr}
    (hes : ∀ e ∈ args, ExpressionAgrees P invoke scopes frame e)
    (h : Steady scopes frame session.store) {g : Closure} (hg : g ∈ frame.functions)
    (hcount : g.params.length = args.length) (span : Span)
    (calling : List Assembly.Command) :
    Agrees (Expr.callsOfAll frame args ++ [g]) P (fun _ _ s => s.store = session.store)
      (Compile.arguments scopes args >>= fun before => .ok (before ++ calling))
      ((Evaluate.arguments invoke frame args >>= invoke span g) session) := by
  refine (arguments_agree hes h).bind fun before vs s _ hend => ?_
  obtain ⟨hlength, hstore⟩ := hend
  have hlive : ∀ x ∈ g.vars, s.store.stack x.qualified ≠ [] := by
    intro x hx
    rw [hstore]
    exact h.live x (h.captured g hg hx)
  have hcall := hcalls span g vs s (h.compiled g hg) (hlength.trans hcount.symm) hlive
    (hstore ▸ h.proper)
  exact hcall.imp (fun _ v s' _ hstore' => ⟨_, rfl, hstore'.trans hstore⟩) nofun

theorem expression_agrees (hcalls : CallsAgree P invoke) (e : Expr) :
    ExpressionAgrees P invoke scopes frame e := by
  induction e using Expr.induction_args with
  | number value =>
      intro session h
      rw [Compile.expression, Evaluate.expression]
      exact Agrees.pure rfl
  | var name =>
      intro session h
      rw [Evaluate.expression]
      exact variable_agrees h name
  | binary op lhs rhs ihl ihr =>
      intro session h
      rw [Compile.expression, Evaluate.expression, Expr.calls]
      refine (ihr session h).bind fun right b s₁ _ hstore₁ => ?_
      refine (ihl s₁ (hstore₁ ▸ h)).andThen fun left a s₂ _ hstore₂ => ?_
      exact Agrees.pure (hstore₂.trans hstore₁)
  | call name args ih =>
      intro session h
      rw [Compile.expression, Evaluate.expression, Expr.calls]
      rcases h.matched.callee name args.length with
        ⟨e, hcompile, hevaluate⟩ | ⟨hnone, hcompile, hevaluate⟩ |
        ⟨g, hfound, hcount, hcompile, hevaluate⟩
      · rw [hcompile, hevaluate]
        exact Agrees.error
      · rw [hcompile, hevaluate]
        exact Agrees.error
      · rw [hcompile, hevaluate, hfound]
        exact call_agrees hcalls ih h (List.mem_of_find?_eq_some hfound) hcount name.span _

theorem effect_agrees (hcalls : CallsAgree P invoke) (e : Expr)
    (h : Steady scopes frame session.store) :
    Agrees (e.calls frame) P (fun _ _ s => s.store = session.store) (Compile.effect scopes e)
      (Evaluate.effect invoke frame e session) := by
  cases e with
  | call name args =>
      rw [Compile.effect, Evaluate.effect, Expr.calls]
      rcases h.matched.callee name args.length with
        ⟨e, hcompile, hevaluate⟩ | ⟨hnone, hcompile, hevaluate⟩ |
        ⟨g, hfound, hcount, hcompile, hevaluate⟩
      · rw [hcompile, hevaluate]
        exact Agrees.error
      · rw [hcompile, hevaluate, hnone, Option.toList_none, List.append_nil]
        refine (arguments_agree (fun e _ => expression_agrees hcalls e) h).andThen
          fun before vs s _ hend => ?_
        exact ⟨List.forall_mem_nil _, _, rfl, hend.2⟩
      · rw [hcompile, hevaluate, hfound]
        have hcall := call_agrees hcalls (fun e _ => expression_agrees hcalls e) h
          (List.mem_of_find?_eq_some hfound) hcount name.span [.call g.entry.id.qualified, .pop]
        have hdiscarded := hcall.discard.imp
          (fun b _ s hb hstore => ⟨b, hb, hstore.elim fun _ hstore => hstore⟩) fun _ he => he
        rw [← bind_discard] at hdiscarded
        exact hdiscarded
  | number value | «variable» name | binary op lhs rhs =>
      refine (expression_agrees hcalls _ session h).discard.map (· ++ [.pop]) ?_
      rintro _ _ s - ⟨_, hstore⟩
      exact hstore

end Expressions

end StackCalc
