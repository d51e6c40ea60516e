import StackCalc.Proofs.StaticErrors
import StackCalc.Source.Marks

/-!
# What errors of programs are about

Each error of a program is about a place in its tree: a variable that is read, a name that is
called, defined or a parameter, or a return statement. Compiling and evaluating are given trees
whose places have their spans, and evaluation keeps bodies of functions for later, with the frames
they were defined in; whichever way a place was passed on, it is the span of the place that the
error has and its name that it gives.
-/

namespace StackCalc

open Source

/-- What may be wrong at a place, with the name that stands there. Nothing is wrong with a name that
is assigned to. -/
inductive Mention.Blamed : Mention → EvalError → Prop
  | unbound (name) : Blamed (read name) (.program (.unboundVariable name.val))
  | unknown (name) : Blamed (call name) (.program (.unknownFunction name.val))
  | arity (name expected found) :
      Blamed (call name) (.program (.arityMismatch name.val expected found))
  | noValue (name) (h : name.val = printName) : Blamed (call name) (.program .printHasNoValue)
  | tooDeep (name) : Blamed (call name) .tooDeep
  | outside (span) : Blamed (giveBack span) (.program .returnOutsideFunction)
  | twice (name) : Blamed (define name) (.program (.duplicateFunction name.val))
  | repeated (name) : Blamed (param name) (.program (.duplicateParameter name.val))

/-- The error is about one of the places and has its span. -/
def BlamedOn (places : List Mention) (e : Located EvalError) : Prop :=
  ∃ m ∈ places, m.span = e.span ∧ m.Blamed e.val

/-- What a check refuses, it refuses at one of the places. -/
abbrev RefusesOn {α : Type} (places : List Mention) (checked : Checked α) : Prop :=
  ErrsWith (fun e => BlamedOn places ⟨.program e.val, e.span⟩) checked

namespace RefusesOn

variable {α β : Type} {places : List Mention}

theorem refuse {m : Mention} (hm : m ∈ places) {e : CompileError} (h : m.Blamed (.program e)) :
    RefusesOn places (StackCalc.refuse (α := α) e m.span) := .error ⟨m, hm, rfl, h⟩

theorem callee {found : Option α} {arity : α → Nat} {name : Ident} (count : Nat)
    (hname : .call name ∈ places) :
    RefusesOn places (Callee.resolve found arity name count) := by
  rw [Callee.resolve]
  split
  · exact refuse hname (.unknown name)
  · split
    · exact .ok _
    · exact refuse hname (.arity name _ count)

end RefusesOn

theorem mem_of_repeated? {seen : List String} {params : List Ident} {param : Ident}
    (h : repeated? seen params = some param) : param ∈ params := by
  induction params generalizing seen with
  | nil => cases h
  | cons first params ih =>
      rw [repeated?] at h
      by_cases hseen : first.val ∈ seen
      · rw [if_pos hseen] at h
        cases h
        exact List.mem_cons_self
      · rw [if_neg hseen] at h
        exact List.mem_cons_of_mem _ (ih h)

theorem checkParams_refusesOn {places : List Mention} {params : List Ident}
    (h : params.map .param ⊆ places) : RefusesOn places (checkParams params) := by
  rw [checkParams]
  split
  · next param hparam =>
      have hmem : .param param ∈ places := h (List.mem_map_of_mem (mem_of_repeated? hparam))
      exact .refuse hmem (.repeated param)
  · exact .ok _

theorem Source.Expr.mentions_subset {places : List Mention} {es : List Expr}
    (h : Expr.mentionsOfAll es ⊆ places) : ∀ e ∈ es, e.mentions ⊆ places := by
  induction es with
  | nil => exact List.forall_mem_nil _
  | cons e es ih =>
      obtain ⟨he, hes⟩ := List.append_subset.1 h
      exact List.forall_mem_cons.2 ⟨he, ih hes⟩

namespace Compile

variable {places : List Mention} {scopes : Scopes}

theorem arguments_refusesOn {es : List Expr}
    (h : ∀ e ∈ es, RefusesOn places (expression scopes e)) :
    RefusesOn places (arguments scopes es) := by
  induction es with
  | nil =>
      rw [arguments]
      exact .ok _
  | cons e es ih =>
      obtain ⟨he, hes⟩ := List.forall_mem_cons.1 h
      rw [arguments]
      exact he.bind fun first _ => (ih hes).bind fun rest _ => .ok _

theorem expression_refusesOn {e : Expr} (h : e.mentions ⊆ places) :
    RefusesOn places (expression scopes e) := by
  induction e using Expr.induction_args with
  | number value =>
      rw [expression]
      exact .ok _
  | var name =>
      rw [expression]
      split
      · exact .ok _
      · exact .refuse (h (List.mem_singleton_self _)) (.unbound name)
  | binary op lhs rhs ihl ihr =>
      obtain ⟨hl, hr⟩ := List.append_subset.1 h
      rw [expression]
      exact (ihr hr).bind fun right _ => (ihl hl).bind fun left _ => .ok _
  | call name args ih =>
      obtain ⟨hname, hargs⟩ := List.cons_subset.1 h
      rw [expression]
      refine (RefusesOn.callee args.length hname).bind fun callee hcallee => ?_
      cases callee with
      | print => exact RefusesOn.refuse hname (.noValue name (Callee.resolve_print hcallee).2.1)
      | function f =>
          have harguments : RefusesOn places (arguments scopes args) :=
            arguments_refusesOn fun e he => ih e he (Expr.mentions_subset hargs e he)
          exact harguments.bind fun commands _ => .ok _

theorem effect_refusesOn {e : Expr} (h : e.mentions ⊆ places) :
    RefusesOn places (effect scopes e) := by
  cases e with
  | call name args =>
      obtain ⟨hname, hargs⟩ := List.cons_subset.1 h
      have harguments : RefusesOn places (arguments scopes args) :=
        arguments_refusesOn fun e he => expression_refusesOn (Expr.mentions_subset hargs e he)
      rw [effect]
      refine (RefusesOn.callee args.length hname).bind fun callee _ => ?_
      cases callee with
      | print => exact harguments.bind fun commands _ => .ok _
      | function f => exact harguments.bind fun commands _ => .ok _
  | number value | «variable» name | binary op lhs rhs =>
      exact (expression_refusesOn h).bind fun commands _ => .ok _

/-- Compiling points at places of what is compiled, whatever is in scope. -/
theorem statements_refusesOn {ss : List Stmt} (h : Stmt.mentionsOfAll ss ⊆ places) :
    RefusesOn places (statements scopes ss) := by
  induction ss using Stmt.induction_all generalizing scopes with
  | nil =>
      rw [statements]
      exact .ok _
  | define name params body ss ihbody ih =>
      obtain ⟨hdefine, hss⟩ := List.append_subset.1 h
      obtain ⟨hname, hinside⟩ := List.cons_subset.1 hdefine
      obtain ⟨hparams, hbody⟩ := List.append_subset.1 hinside
      have hstatement : RefusesOn places (statement scopes (.define name params body)) := by
        rw [statement]
        refine (checkParams_refusesOn hparams).bind fun _ _ => ?_
        split
        · exact RefusesOn.refuse hname (.twice name)
        · exact (ihbody hbody).bind fun lines _ => .ok _
      rw [statements]
      exact hstatement.bind fun first _ => (ih hss).bind fun rest _ => .ok _
  | assign target value ss ih =>
      obtain ⟨hassign, hss⟩ := List.append_subset.1 h
      obtain ⟨-, hvalue⟩ := List.cons_subset.1 hassign
      rw [statements, statement]
      refine ErrsWith.bind ?_ fun first _ => (ih hss).bind fun rest _ => .ok _
      exact (expression_refusesOn hvalue).bind fun commands _ => .ok _
  | giveBack value span ss ih =>
      obtain ⟨hgiveBack, hss⟩ := List.append_subset.1 h
      obtain ⟨hspan, hvalue⟩ := List.cons_subset.1 hgiveBack
      rw [statements, statement]
      refine ErrsWith.bind ?_ fun first _ => (ih hss).bind fun rest _ => .ok _
      by_cases hdepth : scopes.depth = 0
      · rw [if_pos hdepth]
        exact (RefusesOn.refuse hspan (.outside span)).bind fun _ h => by cases h
      · rw [if_neg hdepth]
        exact (expression_refusesOn hvalue).bind fun commands _ => .ok _
  | eval value ss ih =>
      obtain ⟨hvalue, hss⟩ := List.append_subset.1 h
      rw [statements, statement]
      refine ErrsWith.bind ?_ fun first _ => (ih hss).bind fun rest _ => .ok _
      exact (effect_refusesOn hvalue).bind fun commands _ => .ok _

end Compile

/-- An assembly that cannot be made is refused at a place of the program. -/
theorem Source.Program.assembly_refusesOn (program : Program) :
    RefusesOn program.mentions program.assembly := by
  have hcompile : RefusesOn program.mentions program.compile :=
    (Compile.statements_refusesOn (List.Subset.refl _)).bind fun _ _ => .ok _
  exact hcompile.bind fun _ _ => .ok _

/-- A function whose body is part of a program, like those of the functions that it can call. -/
inductive Closure.Within (places : List Mention) : Closure → Prop
  | intro {f : Closure} (body : Stmt.mentionsOfAll f.body ⊆ places)
      (functions : ∀ g ∈ f.functions, Within places g) : Within places f

/-- A frame of a program sees functions of the program. -/
def Frame.Within (places : List Mention) (frame : Frame) : Prop :=
  ∀ f ∈ frame.functions, f.Within places

/-- The state is of a kind if there is a value, and else the error is about one of the places. -/
def EndsOn {σ α : Type} (places : List Mention) (P : σ → Prop) :
    EStateM.Result (Located EvalError) σ α → Prop
  | .ok _ s => P s
  | .error e _ => BlamedOn places e

namespace EndsOn

variable {σ α β : Type} {places : List Mention} {P Q : σ → Prop}

theorem bind {x : EStateM (Located EvalError) σ α} {f : α → EStateM (Located EvalError) σ β}
    {s : σ} (h : EndsOn places P (x s)) (hf : ∀ v s', P s' → EndsOn places Q (f v s')) :
    EndsOn places Q ((x >>= f) s) := by
  change EndsOn places Q (EStateM.bind x f s)
  unfold EStateM.bind
  cases hresult : x s with
  | ok v s' =>
      rw [hresult] at h
      exact hf v s' h
  | error e s' =>
      rw [hresult] at h
      exact h

theorem check {checked : Checked α} {s : σ} (h : RefusesOn places checked) (hs : P s) :
    EndsOn places P (Evaluate.check checked s) := by
  cases checked with
  | ok v => exact hs
  | error e => exact h e rfl

/-- A check comes first. -/
theorem checked {checked : Checked α} {f : α → EStateM (Located EvalError) σ β} {s : σ}
    (h : RefusesOn places checked) (hf : ∀ v, checked = .ok v → EndsOn places P (f v s)) :
    EndsOn places P ((Evaluate.check checked >>= f) s) := by
  cases checked with
  | ok v => exact hf v rfl
  | error e => exact h e rfl

theorem discard {x : EStateM (Located EvalError) σ α} {s : σ} (h : EndsOn places P (x s)) :
    EndsOn places P (Functor.discard x s) := by
  change EndsOn places P (EStateM.map _ x s)
  unfold EStateM.map
  cases hresult : x s with
  | ok v s' =>
      rw [hresult] at h
      exact h
  | error e s' =>
      rw [hresult] at h
      exact h

end EndsOn

/-- Wherever a value may be due, the error is about one of the places. -/
abbrev ErrsOn {α : Type} (places : List Mention) (x : Evaluate.Eval α) : Prop :=
  ∀ s, EndsOn places (fun _ => True) (x s)

/-- Calls by names that are places err at places. -/
def CallsErrOn (places : List Mention) (invoke : Evaluate.Invoke) : Prop :=
  ∀ (name : Ident) f values, .call name ∈ places → f.Within places →
    ErrsOn places (invoke name.span f values)

namespace Evaluate

variable {places : List Mention} {invoke : Invoke} {frame : Frame}

theorem value_errsOn {name : Ident} (hname : .read name ∈ places) :
    ErrsOn places (value frame name) := by
  intro s
  rw [value, run_get_bind]
  cases (frame.findVariable? name.val).bind fun x => s.store.top? x.qualified with
  | some v => trivial
  | none => exact .check (.refuse hname (.unbound name)) trivial

theorem arguments_errsOn {es : List Expr}
    (h : ∀ e ∈ es, ErrsOn places (expression invoke frame e)) :
    ErrsOn places (arguments invoke frame es) := by
  induction es with
  | nil =>
      intro s
      rw [arguments]
      trivial
  | cons e es ih =>
      obtain ⟨he, hes⟩ := List.forall_mem_cons.1 h
      intro s
      rw [arguments]
      exact (he s).bind fun first s₁ _ => (ih hes s₁).bind fun rest s₂ _ => trivial

variable (hcalls : CallsErrOn places invoke) (hframe : frame.Within places)

include hcalls hframe

theorem expression_errsOn {e : Expr} (h : e.mentions ⊆ places) :
    ErrsOn places (expression invoke frame e) := by
  induction e using Expr.induction_args with
  | number value =>
      intro s
      rw [expression]
      trivial
  | var name =>
      rw [expression]
      exact value_errsOn (h (List.mem_singleton_self _))
  | binary op lhs rhs ihl ihr =>
      obtain ⟨hl, hr⟩ := List.append_subset.1 h
      intro s
      rw [expression]
      exact (ihr hr s).bind fun right s₁ _ => (ihl hl s₁).bind fun left s₂ _ => trivial
  | call name args ih =>
      obtain ⟨hname, hargs⟩ := List.cons_subset.1 h
      have harguments : ErrsOn places (arguments invoke frame args) :=
        arguments_errsOn fun e he => ih e he (Expr.mentions_subset hargs e he)
      intro s
      rw [expression]
      refine .checked (.callee args.length hname) fun found hcallee => ?_
      cases found with
      | print =>
          have hprint := (Callee.resolve_print hcallee).2.1
          exact .check (.refuse hname (.noValue name hprint)) trivial
      | function f =>
          have hf := hframe f (List.mem_of_find?_eq_some (Callee.resolve_function hcallee).1)
          exact (harguments s).bind fun values s₁ _ => hcalls name f values hname hf s₁

theorem effect_errsOn {e : Expr} (h : e.mentions ⊆ places) :
    ErrsOn places (effect invoke frame e) := by
  cases e with
  | call name args =>
      obtain ⟨hname, hargs⟩ := List.cons_subset.1 h
      have harguments : ErrsOn places (arguments invoke frame args) :=
        arguments_errsOn fun e he =>
          expression_errsOn hcalls hframe (Expr.mentions_subset hargs e he)
      intro s
      rw [effect]
      refine .checked (.callee args.length hname) fun found hcallee => ?_
      cases found with
      | print => exact (harguments s).bind fun values s₁ _ => trivial
      | function f =>
          have hf := hframe f (List.mem_of_find?_eq_some (Callee.resolve_function hcallee).1)
          refine (harguments s).bind fun values s₁ _ => ?_
          exact EndsOn.discard (hcalls name f values hname hf s₁)
  | number value | «variable» name | binary op lhs rhs =>
      exact fun s => EndsOn.discard (expression_errsOn hcalls hframe h s)

end Evaluate

section Bodies

variable {places : List Mention} {invoke : Evaluate.Invoke} {a : Activation}

theorem EndsOn.inFrame {α : Type} {act : Frame → Evaluate.Eval α}
    (ha : a.frame.Within places) (h : ErrsOn places (act a.frame)) :
    EndsOn places (·.frame.Within places) (Evaluate.inFrame act a) := by
  have hact := h a.session
  unfold Evaluate.inFrame
  cases hresult : act a.frame a.session with
  | ok v s => exact ha
  | error e s =>
      rw [hresult] at hact
      exact hact

theorem Frame.Within.define (h : a.frame.Within places) (name : Ident) (params : List Ident)
    {body : List Stmt} (hbody : Stmt.mentionsOfAll body ⊆ places) :
    (a.frame.define name params body).Within places :=
  List.forall_mem_cons.2 ⟨.intro hbody h, h⟩

theorem Activation.functions_enter (session : Session) (f : Closure) (values : List Number) :
    (enter session f values).frame.functions = f :: f.functions := by
  unfold enter
  generalize f.params.zip values = given
  have hsame (a : Activation) : (given.foldl (fun a x => a.bind x.1.val x.2) a).frame.functions =
      a.frame.functions := by
    induction given generalizing a with
    | nil => rfl
    | cons x given ih => exact ih _
  exact hsame _

theorem statement_errsOn (hcalls : CallsErrOn places invoke) (ha : a.frame.Within places)
    {s : Stmt} (h : s.mentions ⊆ places) :
    EndsOn places (·.frame.Within places) (Evaluate.statement invoke s a) := by
  cases s with
  | define name params body =>
      obtain ⟨hname, hinside⟩ := List.cons_subset.1 h
      obtain ⟨hparams, hbody⟩ := List.append_subset.1 hinside
      rw [Evaluate.statement]
      refine .checked (checkParams_refusesOn hparams) fun _ hdistinct => ?_
      rw [run_get_bind]
      by_cases hgiven : name.val ∈ a.frame.defined
      · rw [if_pos hgiven]
        exact .checked (.refuse hname (.twice name)) fun _ h => by cases h
      · rw [if_neg hgiven]
        exact ha.define name params hbody
  | assign target value =>
      obtain ⟨-, hvalue⟩ := List.cons_subset.1 h
      rw [Evaluate.assign_eq]
      refine (EndsOn.inFrame ha ?_).bind fun v a₁ ha₁ => ?_
      · exact Evaluate.expression_errsOn hcalls ha hvalue
      exact ha₁
  | giveBack value span =>
      obtain ⟨hspan, hvalue⟩ := List.cons_subset.1 h
      rw [Evaluate.statement, run_get_bind]
      by_cases howner : a.frame.owner.isNone = true
      · rw [if_pos howner]
        exact .checked (.refuse hspan (.outside span)) fun _ h => by cases h
      · rw [if_neg howner]
        refine (EndsOn.inFrame ha ?_).bind fun v a₁ ha₁ => ha₁
        exact Evaluate.expression_errsOn hcalls ha hvalue
  | eval value =>
      rw [Evaluate.eval_eq]
      exact (EndsOn.inFrame ha (Evaluate.effect_errsOn hcalls ha h)).bind fun v a₁ ha₁ => ha₁

theorem statements_errsOn (hcalls : CallsErrOn places invoke) (ha : a.frame.Within places)
    {ss : List Stmt} (h : Stmt.mentionsOfAll ss ⊆ places) :
    EndsOn places (·.frame.Within places) (Evaluate.statements invoke ss a) := by
  induction ss generalizing a with
  | nil => exact ha
  | cons s ss ih =>
      obtain ⟨hs, hss⟩ := List.append_subset.1 h
      rw [Evaluate.statements]
      refine (statement_errsOn hcalls ha hs).bind fun returned a₁ ha₁ => ?_
      cases returned with
      | some value => exact ha₁
      | none => exact ih ha₁ hss

/-- Calls err at places of the program, whatever is still allowed. -/
theorem invokeWithin_errsOn (places : List Mention) (depth : Nat) :
    CallsErrOn places (Evaluate.invokeWithin depth) := by
  induction depth with
  | zero => exact fun name f values hname _ s => ⟨.call name, hname, rfl, .tooDeep name⟩
  | succ depth ih =>
      intro name f values _ hf s
      have ⟨hbody, hfunctions⟩ := hf
      have hinside : (Activation.enter s f values).frame.Within places := by
        rw [Frame.Within, Activation.functions_enter]
        exact List.forall_mem_cons.2 ⟨hf, hfunctions⟩
      have hends := statements_errsOn ih hinside hbody
      rw [Evaluate.invokeWithin_succ, Evaluate.body]
      cases hresult : Evaluate.statements (Evaluate.invokeWithin depth) f.body
          (Activation.enter s f values) with
      | ok returned a => trivial
      | error e a =>
          rw [hresult] at hends
          exact hends

/-- An error of an evaluation is about a place of the program. -/
theorem Session.blamedOn_of_evaluate {session : Session} {program : Program}
    {e : Located EvalError} (h : (session.evaluate program).2 = .error e) :
    BlamedOn program.mentions e := by
  have hbegins : (Activation.mk .topLevel session).frame.Within program.mentions :=
    List.forall_mem_nil _
  have hends := statements_errsOn (invokeWithin_errsOn program.mentions maxCallDepth) hbegins
    (List.Subset.refl program.mentions)
  rw [evaluate] at h
  cases hresult : Evaluate.statements (Evaluate.invokeWithin maxCallDepth) program
      ⟨.topLevel, session⟩ with
  | ok returned a =>
      rw [hresult] at h
      cases h
  | error e' a =>
      rw [hresult] at h hends
      cases h
      exact hends

end Bodies

end StackCalc
