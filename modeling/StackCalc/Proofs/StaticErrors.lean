import StackCalc.Proofs.Agreement

/-!
# Errors of programs, up front and on arrival

Compiling checks a whole program in the order of its text, evaluating checks what it gets to. A
program that compiles is evaluated without an error; and if the first error of a program is not
inside the body of a function, evaluation stops with that error. Either way it may call too deep
before.
-/

namespace StackCalc

open Source

/-- A body that runs on top of values that are not its own. -/
structure Runs (scopes : Scopes) (a : Activation) (below : Bindings String Number) : Prop
    extends Steady scopes a.frame a.session.store where
  belowProper : below.Proper
  kept : ∃ xs, a.session.store = below.pushAll xs ∧
    xs.map Prod.fst = a.frame.own.map (·.qualified)

namespace Runs

variable {scopes : Scopes} {a : Activation} {below : Bindings String Number}

theorem leave_store (h : Runs scopes a below) : a.leave.store = below := by
  obtain ⟨xs, hstore, hxs⟩ := h.kept
  rw [Activation.leave, foldl_pop_eq_popAll, hstore, ← hxs, Bindings.popAll_pushAll h.belowProper]

theorem congr (h : Runs scopes a below) {session : Session}
    (hstore : session.store = a.session.store) :
    Runs scopes { a with session := session } below := by
  obtain ⟨hsteady, hproper, hkept⟩ := h
  rw [← hstore] at hsteady hkept
  exact ⟨hsteady, hproper, hkept⟩

theorem bind (h : Runs scopes a below) (name : String) (value : Number) :
    Runs (scopes.grow [scopes.qualify name] [] []) (a.bind name value) below := by
  obtain ⟨xs, hkept, hxs⟩ := h.kept
  rw [h.matched.bind_eq]
  refine ⟨⟨h.matched.bind _, h.compiled, ?_, ?_, h.proper.push _ _⟩, h.belowProper,
    ((scopes.qualify name).qualified, value) :: xs, ?_, ?_⟩
  · exact fun f hf => List.Subset.trans (h.captured f hf) (List.subset_cons_self _ _)
  · intro x hx
    rw [Bindings.stack_push]
    split
    · exact List.cons_ne_nil _ _
    · next hne =>
        rcases List.mem_cons.1 hx with rfl | hx
        · exact absurd rfl hne
        · exact h.live x hx
  · rw [hkept]
    rfl
  · rw [List.map_cons, hxs]
    rfl

theorem define (h : Runs scopes a below) {name : Ident} {params : List Ident}
    {body : List Stmt} {names : List String}
    (hcompiled : Compiled (a.frame.closure name params body))
    (hname : (scopes.qualify name.val).qualified ∈ names) :
    Runs (scopes.grow [] [⟨scopes.qualify name.val, params.length⟩] names)
      { a with frame := a.frame.define name params body } below := by
  refine ⟨⟨h.matched.define name params body hname, ?_, ?_, h.live, h.proper⟩, h.belowProper,
    h.kept⟩
  · intro f hf
    rcases List.mem_cons.1 hf with rfl | hf
    · exact hcompiled
    · exact h.compiled f hf
  · intro f hf
    rcases List.mem_cons.1 hf with rfl | hf
    · exact List.Subset.refl _
    · exact h.captured f hf

end Runs

theorem Activation.frame_enter {session : Session} {f : Closure} {values : List Number}
    (h : values.length = f.params.length) : (enter session f values).frame = f.inside := by
  rw [enter_eq session f values h]
  rfl

theorem Runs.of_enter {scopes : Scopes} {f : Closure} {values : List Number} {session : Session}
    (hself : Compiled f) (hparams : checkParams f.params = .ok ())
    (hmatched : Matches scopes (.ofClosure f)) (hfunctions : ∀ g ∈ f.functions, Compiled g)
    (hcaptured : ∀ g ∈ f.functions, g.vars ⊆ f.vars)
    (hcount : values.length = f.params.length)
    (hlive : ∀ x ∈ f.vars, session.store.stack x.qualified ≠ [])
    (hproper : session.store.Proper) :
    Runs (scopes.grow (scopes.qualifyAll f.params) [] []) (Activation.enter session f values)
      session.store := by
  have hnames : f.paramNames = scopes.qualifyAll f.params :=
    List.map_congr_left fun p _ => hmatched.qualify p.val
  have hlength : values.length = (scopes.qualifyAll f.params).length := by
    rw [hcount, Scopes.qualifyAll, List.length_map]
  have hfst : (((scopes.qualifyAll f.params).map (·.qualified)).zip values).reverse.map Prod.fst =
      (scopes.qualifyAll f.params).reverse.map (·.qualified) := by
    rw [List.map_reverse, List.map_fst_zip (by simp [hlength]), List.map_reverse]
  rw [Activation.enter_eq session f values hcount, hnames]
  refine ⟨⟨?_, ?_, ?_, ?_, hproper.pushAll _⟩, hproper, _, rfl, hfst⟩
  · have hnodup : ((scopes.qualifyAll f.params).map (·.name)).Nodup := by
      rw [Scopes.names_qualifyAll]
      exact nodup_of_checkParams hparams
    have hbound := hmatched.bindAll hnodup
    rwa [show (Frame.ofClosure f).own = [] from rfl, List.append_nil] at hbound
  · intro g hg
    rcases List.mem_cons.1 hg with rfl | hg
    · exact hself
    · exact hfunctions g hg
  · intro g hg
    refine List.Subset.trans ?_ (List.subset_append_right _ f.vars)
    rcases List.mem_cons.1 hg with rfl | hg
    · exact List.Subset.refl _
    · exact hcaptured g hg
  · intro x hx
    apply Bindings.stack_pushAll_ne_nil
    rcases List.mem_append.1 hx with hx | hx
    · refine .inr ?_
      rw [hfst]
      exact List.mem_map_of_mem hx
    · exact .inl (hlive x hx)

theorem Scopes.length_path (scopes : Scopes) : scopes.path.length = scopes.depth := by
  simp [path, depth]

section Statements

variable {P : Closure → Prop} {invoke : Evaluate.Invoke} {scopes scopes' : Scopes}
  {a : Activation} {below : Bindings String Number}

/-- The body still runs behind a statement, which has returned a value if it returns any. -/
structure Proceeds (scopes' : Scopes) (a : Activation) (below : Bindings String Number) (s : Stmt)
    (returned : Option Number) (a' : Activation) : Prop where
  runs : Runs scopes' a' below
  frame : a'.frame = a.frame.past s
  returned : returned.isSome = s.isReturn

theorem Agrees.inFrame {α β : Type} {calls : List Closure} {checked : Checked β}
    {act : Frame → Evaluate.Eval α} (hruns : Runs scopes a below)
    (h : Agrees calls P (fun _ _ s => s.store = a.session.store) checked
      (act a.frame a.session)) :
    Agrees calls P (fun _ _ a' => Runs scopes a' below ∧ a'.frame = a.frame) checked
      (Evaluate.inFrame act a) := by
  unfold Evaluate.inFrame
  cases hx : act a.frame a.session with
  | ok v s =>
      rw [hx] at h
      obtain ⟨hcalls, b, hb, hstore⟩ := h
      exact ⟨hcalls, b, hb, hruns.congr hstore, rfl⟩
  | error e s =>
      rw [hx] at h
      exact h

theorem assign_agrees (hcalls : CallsAgree P invoke) (hruns : Runs scopes a below)
    (target : Ident) (value : Expr) :
    Agrees (value.calls a.frame) P
      (fun r returned a' => Proceeds r.2 a below (.assign target value) returned a')
      (Compile.statement scopes (.assign target value))
      (Evaluate.statement invoke (.assign target value) a) := by
  have hvalue := expression_agrees hcalls value a.session hruns.toSteady
  rw [Evaluate.assign_eq, Compile.statement]
  refine (Agrees.inFrame hruns hvalue).andThen fun commands v a₁ _ hend => ?_
  obtain ⟨hruns₁, hframe⟩ := hend
  rw [Scopes.bind_eq]
  refine ⟨List.forall_mem_nil _, _, rfl, hruns₁.bind target.val v, ?_, rfl⟩
  rw [← hframe]
  rfl

theorem eval_agrees (hcalls : CallsAgree P invoke) (hruns : Runs scopes a below) (value : Expr) :
    Agrees (value.calls a.frame) P
      (fun r returned a' => Proceeds r.2 a below (.eval value) returned a')
      (Compile.statement scopes (.eval value)) (Evaluate.statement invoke (.eval value) a) := by
  have heffect := effect_agrees hcalls value hruns.toSteady
  rw [Evaluate.eval_eq, Compile.statement]
  refine (Agrees.inFrame hruns heffect).andThen fun commands _ a₁ _ hend => ?_
  exact ⟨List.forall_mem_nil _, _, rfl, hend.1, hend.2, rfl⟩

theorem Matches.owner_of_depth {frame : Frame} (h : Matches scopes frame)
    (hdepth : scopes.depth = 0) : frame.owner = none := by
  have hpath : scopes.path = [] :=
    List.eq_nil_of_length_eq_zero (scopes.length_path.trans hdepth)
  cases howner : frame.owner with
  | none => rfl
  | some f =>
      have hqualify := congrArg ScopedName.qualified (h.qualify "")
      simp only [Frame.qualify, howner, Scopes.qualify, hpath] at hqualify
      have hlength := congrArg String.length hqualify
      simp at hlength

theorem giveBack_agrees (hcalls : CallsAgree P invoke) (hruns : Runs scopes a below)
    (value : Expr) (span : Span) :
    Agrees (value.calls a.frame) P
      (fun r returned a' => Proceeds r.2 a below (.giveBack value span) returned a')
      (Compile.statement scopes (.giveBack value span))
      (Evaluate.statement invoke (.giveBack value span) a) := by
  rw [Compile.statement]
  by_cases hdepth : scopes.depth = 0
  · rw [Evaluate.statement, run_get_bind, hruns.matched.owner_of_depth hdepth, if_pos hdepth]
    exact Agrees.error
  · rw [Evaluate.giveBack_eq fun howner => hdepth (hruns.matched.owner howner), if_neg hdepth]
    have hvalue := expression_agrees hcalls value a.session hruns.toSteady
    refine (Agrees.inFrame hruns hvalue).andThen fun commands v a₁ _ hend => ?_
    exact Agrees.pure ⟨hend.1, hend.2, rfl⟩

/-- Does a definition pass what is checked of it outside its body? -/
def Compile.opens (scopes : Scopes) (name : Ident) (params : List Ident) : Bool :=
  (checkParams params).isOk && decide ((scopes.qualify name.val).qualified ∉ scopes.defined)

theorem Evaluate.define_twice {name : Ident} {params : List Ident} {body : List Stmt}
    (hparams : checkParams params = .ok ()) (hgiven : name.val ∈ a.frame.defined) :
    statement invoke (.define name params body) a =
      .error ⟨.program (.duplicateFunction name.val), name.span⟩ a := by
  have hchecked : (check (.ok ()) : BodyEval Unit) = pure () := rfl
  rw [statement, hparams, hchecked, pure_bind, run_get_bind, if_pos hgiven]
  rfl

/-- A definition agrees where a name is given twice on both sides or on none, provided that what is
wrong with it is not inside its body. -/
theorem define_agrees (hruns : Runs scopes a below) {name : Ident} {params : List Ident}
    {body : List Stmt}
    (hgiven : (scopes.qualify name.val).qualified ∈ scopes.defined →
      name.val ∈ a.frame.defined)
    (hbody : Compile.opens scopes name params = true →
      (Compile.statement scopes (.define name params body)).isOk = true) :
    Agrees [] P (fun r returned a' => Proceeds r.2 a below (.define name params body) returned a')
      (Compile.statement scopes (.define name params body))
      (Evaluate.statement invoke (.define name params body) a) := by
  cases hparams : checkParams params with
  | error e =>
      rw [Compile.statement, Evaluate.statement, hparams]
      exact Agrees.error
  | ok _ =>
      by_cases hmem : (scopes.qualify name.val).qualified ∈ scopes.defined
      · have henter : scopes.enter? name.val params.length = none := if_pos hmem
        have hcompile : Compile.statement scopes (.define name params body) =
            refuse (.duplicateFunction name.val) name.span := by
          rw [Compile.statement, hparams, henter]
          rfl
        rw [hcompile, Evaluate.define_twice hparams (hgiven hmem)]
        exact .inr ⟨_, rfl, rfl⟩
      · have hopens : Compile.opens scopes name params = true := by
          rw [Compile.opens, hparams, decide_eq_true hmem]
          rfl
        obtain ⟨⟨lines, last⟩, hcompile⟩ := exists_of_isOk (hbody hopens)
        obtain ⟨bodyLines, inner, hdistinct, -, hinner, -, rfl⟩ := Compile.define_ok hcompile
        have hunseen : name.val ∉ a.frame.defined :=
          fun hseen => hmem (hruns.matched.defined name.val hseen)
        rw [Evaluate.define_eq hdistinct hunseen, hcompile]
        rw [Compile.exit_of_growsBy (Compile.growsBy_of_statements hinner)]
        have hcompiled : Compiled (a.frame.closure name params body) :=
          .intro hdistinct (hruns.matched.inside name params body) hinner hruns.compiled
            hruns.captured
        refine ⟨List.forall_mem_nil _, _, rfl, hruns.define hcompiled ?_, rfl, rfl⟩
        simp [Stmt.definitions, Scopes.qualify_eq]

theorem statement_agrees (hcalls : CallsAgree P invoke) (hruns : Runs scopes a below) {s : Stmt}
    (hdefine : ∀ name params body, s = .define name params body →
      ((scopes.qualify name.val).qualified ∈ scopes.defined → name.val ∈ a.frame.defined) ∧
      (Compile.opens scopes name params = true → (Compile.statement scopes s).isOk = true)) :
    Agrees (s.calls a.frame) P (fun r returned a' => Proceeds r.2 a below s returned a')
      (Compile.statement scopes s) (Evaluate.statement invoke s a) := by
  cases s with
  | define name params body =>
      obtain ⟨hgiven, hbody⟩ := hdefine name params body rfl
      exact define_agrees hruns hgiven hbody
  | assign target value => exact assign_agrees hcalls hruns target value
  | giveBack value span => exact giveBack_agrees hcalls hruns value span
  | eval value => exact eval_agrees hcalls hruns value

theorem body_agrees (hcalls : CallsAgree P invoke) {ss : List Stmt}
    {lines : List Assembly.Line} (hruns : Runs scopes a below)
    (h : Compile.statements scopes ss = .ok (lines, scopes')) :
    Agrees (Stmt.callsOfAll a.frame ss) P
      (fun (_ : Unit) (_ : Option Number) a' => a'.leave.store = below) (.ok ())
      (Evaluate.statements invoke ss a) := by
  induction ss generalizing scopes a lines with
  | nil =>
      rw [Evaluate.statements]
      exact Agrees.pure hruns.leave_store
  | cons s ss ih =>
      obtain ⟨first, mid, rest, hfirst, hrest, rfl⟩ := Compile.statements_cons_ok h
      have hstatement := statement_agrees hcalls hruns (s := s) fun name params body hs => by
        subst hs
        obtain ⟨-, -, -, hfresh, -, -, -⟩ := Compile.define_ok hfirst
        exact ⟨fun hmem => absurd hmem hfresh, fun _ => by rw [hfirst]; rfl⟩
      rw [Evaluate.statements, Stmt.callsOfAll]
      have hchecked : (.ok () : Checked Unit) =
          Compile.statement scopes s >>= fun _ => .ok () := by
        rw [hfirst]
        rfl
      rw [hchecked]
      refine hstatement.bind fun r returned a₁ hr hproceeds => ?_
      cases hfirst.symm.trans hr
      obtain ⟨hruns₁, hframe, hreturned⟩ := hproceeds
      rw [← hreturned, ← hframe]
      cases returned with
      | some value => exact Agrees.pure hruns₁.leave_store
      | none => exact ih hruns₁ hrest

theorem invokeWithin_agrees (depth : Nat) :
    CallsAgree (fun f => f.nests depth = true) (Evaluate.invokeWithin depth) := by
  induction depth with
  | zero =>
      intro span f values session _ _ _ _
      exact .inl ⟨rfl, f, List.mem_singleton_self f, Bool.false_ne_true⟩
  | succ depth ih =>
      intro span f values session hcompiled hcount hlive hproper
      rw [Evaluate.invokeWithin_succ, Evaluate.body]
      have ⟨hdistinct, hmatched, hbody, hfunctions, hcaptured⟩ := hcompiled
      have hruns := Runs.of_enter hcompiled hdistinct hmatched hfunctions hcaptured hcount
        hlive hproper
      have hends := body_agrees ih hruns hbody
      rw [Activation.frame_enter hcount] at hends
      cases hresult : Evaluate.statements (Evaluate.invokeWithin depth) f.body
          (Activation.enter session f values) with
      | ok returned a =>
          rw [hresult] at hends
          obtain ⟨hnests, -, -, hstore⟩ := hends
          refine ⟨?_, (), rfl, hstore⟩
          intro g hg
          rw [List.mem_singleton.1 hg]
          exact Closure.nests_succ.2 hnests
      | error e a =>
          rw [hresult] at hends
          rcases hends with ⟨he, g, hg, hdeep⟩ | ⟨refusal, hrefusal, -⟩
          · refine .inl ⟨he, f, List.mem_singleton_self f, fun hnests => ?_⟩
            exact hdeep (Closure.nests_succ.1 hnests g hg)
          · cases hrefusal

end Statements

/-- Is the first error of statements inside the body of a function that they define? -/
def Compile.failsInBody (scopes : Scopes) : List Stmt → Bool
  | [] => false
  | s :: ss =>
    match statement scopes s with
    | .ok (_, scopes) => failsInBody scopes ss
    | .error _ =>
      match s with
      | .define name params _ => opens scopes name params
      | .assign _ _ | .giveBack _ _ | .eval _ => false

theorem Compile.failsInBody_of_ok {scopes : Scopes} {ss : List Stmt}
    {r : List Assembly.Line × Scopes} (h : statements scopes ss = .ok r) :
    failsInBody scopes ss = false := by
  induction ss generalizing scopes r with
  | nil => rfl
  | cons s ss ih =>
      obtain ⟨first, mid, rest, hfirst, hrest, -⟩ := statements_cons_ok h
      unfold failsInBody
      rw [hfirst]
      exact ih hrest

namespace Source

theorem IsIdentifier.no_point {name : String} (h : IsIdentifier name) : '.' ∉ name.toList :=
  fun hmem => Bool.noConfusion (h.all '.' hmem)

/-- What is defined inside a function goes by no name of one part. -/
theorem Stmt.point_of_definitions (path : List String) (outer : String) (ss : List Stmt) :
    ∀ d ∈ Stmt.definitionsOfAll (path ++ [outer]) ss, '.' ∈ d.id.qualified.toList := by
  induction ss using Stmt.induction_all generalizing path outer with
  | nil => exact nofun
  | define name params body ss ihbody ih =>
      intro d hd
      simp only [Stmt.definitionsOfAll, Stmt.definitions, List.cons_append, List.mem_cons,
        List.mem_append] at hd
      rcases hd with rfl | hd | hd
      · simp [qualifiedBy_snoc]
      · exact ihbody (path ++ [outer]) name.val d hd
      · exact ih path outer d hd
  | assign target value ss ih | giveBack value span ss ih | eval value ss ih =>
      simpa only [Stmt.definitionsOfAll, Stmt.definitions, List.nil_append] using ih path outer

end Source

section Programs

variable {P : Closure → Prop} {invoke : Evaluate.Invoke} {scopes : Scopes} {a : Activation}
  {below : Bindings String Number}

/-- At the top level, a name is given in code if it is given in the frame. -/
def GivenAlike (scopes : Scopes) (frame : Frame) : Prop :=
  ∀ name, IsIdentifier name → name ∈ scopes.defined → name ∈ frame.defined

theorem GivenAlike.past {lines : List Assembly.Line} {scopes' : Scopes} {frame : Frame} {s : Stmt}
    (h : GivenAlike scopes frame) (hpath : scopes.path = [])
    (hs : Compile.statement scopes s = .ok (lines, scopes')) :
    GivenAlike scopes' (frame.past s) := by
  intro name hname hmem
  obtain ⟨functions, rfl⟩ := Compile.growsBy_of_statement hs
  rw [Scopes.defined_grow, List.mem_append, List.mem_reverse, hpath] at hmem
  rcases hmem with hmem | hmem
  · obtain ⟨d, hd, rfl⟩ := List.mem_map.1 hmem
    rw [Stmt.definitionsOfAll, Stmt.definitionsOfAll, List.append_nil] at hd
    cases s with
    | define callee params body =>
        rw [Stmt.definitions, List.mem_cons] at hd
        rcases hd with rfl | hd
        · simp [qualifiedBy, Frame.past, Frame.define]
        · exact absurd (Stmt.point_of_definitions [] callee.val body d hd) hname.no_point
    | assign target value | giveBack value span | eval value => cases hd
  · have hgiven := h name hname hmem
    cases s with
    | define callee params body => exact List.mem_cons_of_mem _ hgiven
    | assign target value | giveBack value span | eval value => exact hgiven

/-- The statements of a program agree as far as the first error of the program, if this is not
inside a function. -/
theorem program_agrees (hcalls : CallsAgree P invoke) {ss : List Stmt} {numbers : Number → Prop}
    (hruns : Runs scopes a below) (hpath : scopes.path = [])
    (hgiven : GivenAlike scopes a.frame) (hover : Stmt.AllOver IsIdentifier numbers ss)
    (hfails : Compile.failsInBody scopes ss = false) :
    Agrees (Stmt.callsOfAll a.frame ss) P
      (fun (_ : List Assembly.Line × Scopes) (_ : Option Number) (_ : Activation) => True)
      (Compile.statements scopes ss) (Evaluate.statements invoke ss a) := by
  induction ss generalizing scopes a with
  | nil =>
      rw [Compile.statements, Evaluate.statements]
      exact Agrees.pure trivial
  | cons s ss ih =>
      unfold Compile.failsInBody at hfails
      have hstatement := statement_agrees hcalls hruns (s := s) fun name params body hs => by
        subst hs
        refine ⟨fun hmem => hgiven name.val hover.1.1 ?_, fun hopens => ?_⟩
        · rwa [Scopes.qualify_eq, hpath, qualifiedBy] at hmem
        · cases hresult : Compile.statement scopes (.define name params body) with
          | ok r => rfl
          | error e =>
              rw [hresult] at hfails
              cases hopens.symm.trans hfails
      rw [Compile.statements, Evaluate.statements, Stmt.callsOfAll]
      refine hstatement.bind fun r returned a₁ hr hproceeds => ?_
      obtain ⟨lines, mid⟩ := r
      obtain ⟨hruns₁, hframe, hreturned⟩ := hproceeds
      rw [hr] at hfails
      rw [← hreturned, ← hframe]
      cases returned with
      | some value =>
          cases s with
          | giveBack value span =>
              obtain ⟨hdepth, -⟩ := Compile.giveBack_ok hr
              rw [← Scopes.length_path, hpath] at hdepth
              exact absurd rfl hdepth
          | define _ _ _ | assign _ _ | eval _ => cases hreturned
      | none =>
          have hmid : mid.path = [] := (Compile.path_of_statement hr).trans hpath
          have hlater := ih hruns₁ hmid (hframe ▸ hgiven.past hpath hr) hover.2 hfails
          exact hlater.map _ fun _ _ _ _ _ => trivial

end Programs

theorem Runs.topLevel : Runs .empty ⟨.topLevel, .empty⟩ ∅ :=
  ⟨⟨.topLevel, nofun, nofun, nofun, Bindings.proper_empty⟩, Bindings.proper_empty, [], rfl, rfl⟩

namespace Source.Program

variable {program : Program} {numbers : Number → Prop}

/-- Evaluating a program agrees with compiling it, and calls too deep if and only if the calls of
the program do not nest inside the limit. -/
theorem evaluation_agrees (hover : program.Over IsIdentifier numbers)
    (hfails : Compile.failsInBody .empty program = false) (depth : Nat) :
    Agrees program.calls (fun f => f.nests depth = true)
      (fun (_ : List Assembly.Line × Scopes) (_ : Option Number) (_ : Activation) => True)
      (Compile.statements .empty program)
      (Evaluate.statements (Evaluate.invokeWithin depth) program ⟨.topLevel, .empty⟩) :=
  program_agrees (invokeWithin_agrees depth) .topLevel rfl nofun hover hfails

theorem statements_of_assembly {asm : String} (h : program.assembly = .ok asm) :
    ∃ r, Compile.statements .empty program = .ok r := by
  obtain ⟨lines, hlines, -⟩ := bind_eq_ok_iff.1 h
  obtain ⟨r, hr, -⟩ := bind_eq_ok_iff.1 hlines
  exact ⟨r, hr⟩

theorem statements_of_refused {e : Located CompileError} (h : program.assembly = .error e) :
    Compile.statements .empty program = .error e := by
  rcases bind_eq_error_iff.1 h with h | ⟨_, -, h⟩
  · rcases bind_eq_error_iff.1 h with h | ⟨_, -, h⟩
    · exact h
    · cases h
  · cases h

/-- A program that compiles is evaluated to its end if its calls nest inside the limit, and calls
too deep if they do not. A program whose first error is not inside the body of a function is
evaluated up to that very error, unless its calls do not nest inside the limit and it calls too deep
before. -/
theorem errors_agree (hover : program.Over IsIdentifier numbers) :
    (∀ asm, program.assembly = .ok asm →
      (program.nests maxCallDepth = true ∧ (Session.empty.evaluate program).2 = .ok ()) ∨
      (program.nests maxCallDepth = false ∧
        ∃ span, (Session.empty.evaluate program).2 = .error ⟨.tooDeep, span⟩)) ∧
    ∀ e, program.assembly = .error e → Compile.failsInBody .empty program = false →
      (Session.empty.evaluate program).2 = .error ⟨.program e.val, e.span⟩ ∨
      (program.nests maxCallDepth = false ∧
        ∃ span, (Session.empty.evaluate program).2 = .error ⟨.tooDeep, span⟩) := by
  unfold Session.evaluate
  constructor
  · intro asm hasm
    obtain ⟨r, hr⟩ := statements_of_assembly hasm
    have hagrees := evaluation_agrees hover (Compile.failsInBody_of_ok hr) maxCallDepth
    cases hresult : Evaluate.statements (Evaluate.invokeWithin maxCallDepth) program
        ⟨.topLevel, .empty⟩ with
    | ok returned a =>
        rw [hresult] at hagrees
        exact .inl ⟨List.all_eq_true.2 hagrees.1, rfl⟩
    | error e a =>
        rw [hresult, hr] at hagrees
        rcases hagrees with ⟨hdeep, hcalls⟩ | ⟨refusal, hrefusal, -⟩
        · exact .inr ⟨List.all_eq_false.2 hcalls, e.span, by rw [← hdeep]⟩
        · cases hrefusal
  · intro e he hfails
    have hagrees := evaluation_agrees hover hfails maxCallDepth
    rw [statements_of_refused he] at hagrees
    cases hresult : Evaluate.statements (Evaluate.invokeWithin maxCallDepth) program
        ⟨.topLevel, .empty⟩ with
    | ok returned a =>
        rw [hresult] at hagrees
        obtain ⟨-, _, hok, -⟩ := hagrees
        cases hok
    | error e' a =>
        rw [hresult] at hagrees
        rcases hagrees with ⟨hdeep, hcalls⟩ | ⟨refusal, hrefusal, rfl⟩
        · exact .inr ⟨List.all_eq_false.2 hcalls, e'.span, by rw [← hdeep]⟩
        · cases hrefusal
          exact .inl rfl

end Source.Program

/-- The program `def f(x) { return x; } print(f(2)); y = z;`. -/
def Source.misnamed : Program :=
  [.define ⟨"f", 4, 5⟩ [⟨"x", 6, 7⟩] [.giveBack (.variable ⟨"x", 18, 19⟩) ⟨11, 20⟩],
    .eval (.call ⟨"print", 23, 28⟩ [.call ⟨"f", 29, 30⟩ [.number (Number.read ['2'])]]),
    .assign ⟨"y", 36, 37⟩ (.variable ⟨"z", 40, 41⟩)]

theorem Source.misnamed_stops : misnamed.assembly = .error ⟨.unboundVariable "z", 40, 41⟩ ∧
    (Session.empty.evaluate misnamed).2 = .error ⟨.program (.unboundVariable "z"), 40, 41⟩ := by
  have hf : IsIdentifier "f" := ⟨'f', [], by decide, by decide, by simp⟩
  have hx : IsIdentifier "x" := ⟨'x', [], by decide, by decide, by simp⟩
  have hy : IsIdentifier "y" := ⟨'y', [], by decide, by decide, by simp⟩
  have hz : IsIdentifier "z" := ⟨'z', [], by decide, by decide, by simp⟩
  have hprint : IsIdentifier "print" :=
    ⟨'p', "rint".toList, by decide, by decide, List.all_eq_true.1 rfl⟩
  have hover : misnamed.Over IsIdentifier (fun _ => True) := by
    simp [misnamed, Program.Over, Stmt.AllOver, Stmt.Over, Expr.Over, Expr.AllOver, hf, hx, hy,
      hz, hprint]
  have hassembly : misnamed.assembly = .error ⟨.unboundVariable "z", 40, 41⟩ := by
    decide +kernel
  have hfails : Compile.failsInBody .empty misnamed = false := by decide +kernel
  have hnests : misnamed.nests maxCallDepth = true := by decide +kernel
  obtain hstatic | ⟨hdeep, -⟩ := (Program.errors_agree hover).2 _ hassembly hfails
  · exact ⟨hassembly, hstatic⟩
  · cases hnests.symm.trans hdeep

end StackCalc
