import StackCalc.Proofs.Definitions

/-!
# Scopes along a program

Compiling a statement only ever adds to the innermost scope and to the names that were given, and
a definition leaves of its body nothing but the names. Each kind of statement and expression has
one lemma that says what compiling it has to have done.
-/

namespace StackCalc

open Assembly Source

namespace Scopes

/-- Adds to the innermost scope and to the names that were given, the newest first. -/
def grow (scopes : Scopes) (vars : List ScopedName) (functions : List FunctionEntry)
    (names : List String) : Scopes :=
  { scopes.modifyInnermost fun s => ⟨vars ++ s.vars, functions ++ s.functions⟩ with
    defined := names ++ scopes.defined }

/-- Opens the body of a function. -/
def opened (scopes : Scopes) (f : ScopedName) : Scopes :=
  { scopes with bodies := ⟨f, .empty⟩ :: scopes.bodies }

/-- Where the body of a function begins, its parameters not bound yet. -/
def inside (scopes : Scopes) (f : ScopedName) (arity : Nat) : Scopes :=
  (scopes.grow [] [⟨f, arity⟩] [f.qualified]).opened f

variable (scopes : Scopes) (vars vars' : List ScopedName)
  (functions functions' : List FunctionEntry) (names names' : List String) (f : ScopedName)

theorem grow_nil : scopes.grow [] [] [] = scopes := by
  obtain ⟨base, bodies, defined⟩ := scopes
  cases bodies <;> rfl

theorem grow_grow : (scopes.grow vars functions names).grow vars' functions' names' =
    scopes.grow (vars' ++ vars) (functions' ++ functions) (names' ++ names) := by
  obtain ⟨base, bodies, defined⟩ := scopes
  cases bodies <;> simp [grow, modifyInnermost]

@[simp] theorem defined_grow :
    (scopes.grow vars functions names).defined = names ++ scopes.defined := rfl

@[simp] theorem path_grow : (scopes.grow vars functions names).path = scopes.path := by
  obtain ⟨base, bodies, defined⟩ := scopes
  cases bodies <;> simp [grow, modifyInnermost, path]

@[simp] theorem depth_grow : (scopes.grow vars functions names).depth = scopes.depth := by
  obtain ⟨base, bodies, defined⟩ := scopes
  cases bodies <;> rfl

@[simp] theorem frameBindings_grow :
    (scopes.grow vars functions names).frameBindings = vars ++ scopes.frameBindings := by
  obtain ⟨base, bodies, defined⟩ := scopes
  cases bodies <;> rfl

theorem qualify_eq (name : String) : scopes.qualify name = qualifiedBy scopes.path name := rfl

@[simp] theorem qualify_grow (name : String) :
    (scopes.grow vars functions names).qualify name = scopes.qualify name := by
  rw [qualify_eq, qualify_eq, path_grow]

theorem vars_grow : (scopes.grow vars functions names).visible.flatMap (·.vars) =
    vars ++ scopes.visible.flatMap (·.vars) := by
  obtain ⟨base, bodies, defined⟩ := scopes
  cases bodies <;> simp [grow, modifyInnermost, visible]

theorem functions_grow : (scopes.grow vars functions names).visible.flatMap (·.functions) =
    functions ++ scopes.visible.flatMap (·.functions) := by
  obtain ⟨base, bodies, defined⟩ := scopes
  cases bodies <;> simp [grow, modifyInnermost, visible]

@[simp] theorem path_inside (arity : Nat) :
    (scopes.inside f arity).path = scopes.path ++ [f.name] := by
  have h := scopes.path_grow [] [⟨f, arity⟩] [f.qualified]
  unfold path at h
  simp [inside, opened, path, h]

theorem vars_inside (arity : Nat) : (scopes.inside f arity).visible.flatMap (·.vars) =
    scopes.visible.flatMap (·.vars) := by
  have h := scopes.vars_grow [] [⟨f, arity⟩] [f.qualified]
  simpa [inside, opened, visible, Scope.empty] using h

theorem functions_inside (arity : Nat) : (scopes.inside f arity).visible.flatMap (·.functions) =
    ⟨f, arity⟩ :: scopes.visible.flatMap (·.functions) := by
  have h := scopes.functions_grow [] [⟨f, arity⟩] [f.qualified]
  simpa [inside, opened, visible, Scope.empty] using h

/-- What is left of a body once it is closed. -/
theorem exit_inside (arity : Nat) :
    ((scopes.inside f arity).grow vars functions names).exit?.map (·.2) =
      some (scopes.grow [] [⟨f, arity⟩] (names ++ [f.qualified])) := by
  obtain ⟨base, bodies, defined⟩ := scopes
  cases bodies <;> simp [inside, opened, grow, modifyInnermost, exit?]

theorem bind_eq (name : String) :
    scopes.bind name = (scopes.qualify name, scopes.grow [scopes.qualify name] [] []) := by
  obtain ⟨base, bodies, defined⟩ := scopes
  cases bodies <;> rfl

/-- The names that parameters are bound by in a body. -/
def qualifyAll (params : List Ident) : List ScopedName := params.map fun p => scopes.qualify p.val

variable {scopes}

theorem enter_ok {name : String} {arity : Nat} {f : ScopedName} {inner : Scopes}
    (h : scopes.enter? name arity = some (f, inner)) :
    f = scopes.qualify name ∧ (scopes.qualify name).qualified ∉ scopes.defined ∧
      inner = scopes.inside (scopes.qualify name) arity := by
  unfold enter? at h
  dsimp only at h
  split at h
  · cases h
  · next hfresh =>
      cases h
      exact ⟨rfl, hfresh, rfl⟩

end Scopes

namespace Callee

variable {α : Type} {found : Option α} {arity : α → Nat} {name : Ident} {count : Nat}

theorem resolve_function {f : α} (h : resolve found arity name count = .ok (function f)) :
    found = some f ∧ arity f = count := by
  unfold resolve ofName? at h
  cases found with
  | none =>
      by_cases hname : name.val = printName
      · simp only [hname, if_pos] at h
        split at h <;> cases h
      · simp only [hname, if_neg, not_false_eq_true] at h
        cases h
  | some g =>
      dsimp only at h
      split at h
      · next hcount =>
          cases h
          exact ⟨rfl, hcount.symm⟩
      · cases h

theorem resolve_print (h : resolve found arity name count = .ok print) :
    found = none ∧ name.val = printName ∧ count = 1 := by
  unfold resolve ofName? at h
  cases found with
  | none =>
      by_cases hname : name.val = printName
      · simp only [hname, if_pos] at h
        split at h
        · next hcount => exact ⟨rfl, hname, hcount⟩
        · cases h
      · simp only [hname, if_neg, not_false_eq_true] at h
        cases h
  | some g =>
      dsimp only at h
      split at h <;> cases h

end Callee

namespace Compile

variable {scopes scopes' : Scopes} {commands : List Command} {lines : List Line}

section Expressions

theorem variable_ok {name : Ident} (h : expression scopes (.variable name) = .ok commands) :
    ∃ x, scopes.findVariable? name.val = some x ∧ commands = [.get x.qualified] := by
  rw [expression] at h
  split at h
  · next x hx =>
      cases h
      exact ⟨x, hx, rfl⟩
  · cases h

theorem binary_ok {op : BinaryOp} {lhs rhs : Expr}
    (h : expression scopes (.binary op lhs rhs) = .ok commands) :
    ∃ right left, expression scopes rhs = .ok right ∧ expression scopes lhs = .ok left ∧
      commands = right ++ left ++ [.arith op] := by
  rw [expression] at h
  obtain ⟨right, hright, h⟩ := bind_eq_ok_iff.1 h
  obtain ⟨left, hleft, h⟩ := bind_eq_ok_iff.1 h
  cases h
  exact ⟨right, left, hright, hleft, rfl⟩

theorem call_ok {name : Ident} {args : List Expr}
    (h : expression scopes (.call name args) = .ok commands) :
    ∃ f before, scopes.findFunction? name.val = some f ∧ f.arity = args.length ∧
      arguments scopes args = .ok before ∧ commands = before ++ [.call f.id.qualified] := by
  rw [expression] at h
  obtain ⟨found, hfound, h⟩ := bind_eq_ok_iff.1 h
  cases found with
  | print => cases h
  | function f =>
      obtain ⟨hf, harity⟩ := Callee.resolve_function hfound
      obtain ⟨before, hbefore, h⟩ := bind_eq_ok_iff.1 h
      cases h
      exact ⟨f, before, hf, harity, hbefore, rfl⟩

theorem arguments_cons_ok {e : Expr} {es : List Expr}
    (h : arguments scopes (e :: es) = .ok commands) :
    ∃ first rest, expression scopes e = .ok first ∧ arguments scopes es = .ok rest ∧
      commands = first ++ rest := by
  rw [arguments] at h
  obtain ⟨first, hfirst, h⟩ := bind_eq_ok_iff.1 h
  obtain ⟨rest, hrest, h⟩ := bind_eq_ok_iff.1 h
  cases h
  exact ⟨first, rest, hfirst, hrest, rfl⟩

/-- An expression on its own is a call of `print`, or its value is dropped. -/
theorem effect_ok {e : Expr} (h : effect scopes e = .ok commands) :
    (∃ name arg before, e = .call name [arg] ∧ name.val = printName ∧
      scopes.findFunction? name.val = none ∧ expression scopes arg = .ok before ∧
      commands = before ++ [printCommand]) ∨
    ∃ before, expression scopes e = .ok before ∧ commands = before ++ [.pop] := by
  cases e with
  | call name args =>
      obtain ⟨found, hfound, h⟩ := bind_eq_ok_iff.1 h
      cases found with
      | print =>
          obtain ⟨hnone, hname, hcount⟩ := Callee.resolve_print hfound
          obtain ⟨before, hbefore, h⟩ := bind_eq_ok_iff.1 h
          cases h
          obtain ⟨arg, rfl⟩ := List.length_eq_one_iff.1 hcount
          obtain ⟨first, rest, hfirst, hrest, rfl⟩ := arguments_cons_ok hbefore
          cases hrest
          exact .inl ⟨name, arg, first, rfl, hname, hnone, hfirst, by simp⟩
      | function f =>
          obtain ⟨before, hbefore, h⟩ := bind_eq_ok_iff.1 h
          cases h
          refine .inr ⟨before ++ [.call f.id.qualified], ?_, by simp⟩
          rw [expression, hfound]
          simp [hbefore, bind, Except.bind, pure, Except.pure]
  | number value | «variable» name | binary op lhs rhs =>
      obtain ⟨before, hbefore, h⟩ := bind_eq_ok_iff.1 h
      cases h
      exact .inr ⟨before, hbefore, rfl⟩

end Expressions

theorem bindParams_eq (scopes : Scopes) (params : List Ident) :
    bindParams scopes params = (params.map fun p => .set (scopes.qualify p.val).qualified,
      scopes.grow (params.map fun p => scopes.qualify p.val).reverse [] []) := by
  induction params generalizing scopes with
  | nil => simp [bindParams, Scopes.grow_nil]
  | cons p params ih =>
      simp only [bindParams, Scopes.bind_eq, ih, Scopes.qualify_grow, Scopes.grow_grow,
        List.map_cons, List.reverse_cons, List.append_nil]

/-- The commands behind the body of a function. -/
def leaving (body : List Stmt) (scopes : Scopes) : List Command :=
  (if fallsThrough body then [.push .zero] else []) ++ leave scopes

/-- The code of a function between its two labels. -/
def bodyItems (entry : List Command) (lines : List Line) (body : List Stmt) (scopes : Scopes) :
    List Item :=
  entry.map .command ++ Line.items lines ++ (leaving body scopes).map .command

/-- The sets of parameters, the last parameter first. -/
def paramSets (scopes : Scopes) (params : List Ident) : List Command :=
  params.reverse.map fun p => .set (scopes.qualify p.val).qualified

/-- The scopes of a body with its parameters bound. -/
def bodyScopes (scopes : Scopes) (f : ScopedName) (params : List Ident) : Scopes :=
  (scopes.inside f params.length).grow ((scopes.inside f params.length).qualifyAll params) [] []

theorem define_ok {name : Ident} {params : List Ident} {body : List Stmt}
    (h : statement scopes (.define name params body) = .ok (lines, scopes')) :
    ∃ bodyLines last, checkParams params = .ok () ∧
      (scopes.qualify name.val).qualified ∉ scopes.defined ∧
      statements (bodyScopes scopes (scopes.qualify name.val) params) body =
        .ok (bodyLines, last) ∧
      Line.items lines =
        [.command (.jump (endLabel (scopes.qualify name.val))),
          .label (scopes.qualify name.val).qualified] ++
        bodyItems (paramSets (scopes.inside (scopes.qualify name.val) params.length) params)
          bodyLines body last ++ [.label (endLabel (scopes.qualify name.val))] ∧
      scopes' = (last.exit?.map (·.2)).getD last := by
  rw [statement] at h
  obtain ⟨⟨⟩, hparams, h⟩ := bind_eq_ok_iff.1 h
  cases henter : scopes.enter? name.val params.length with
  | none => simp [henter, refuse] at h
  | some entered =>
      obtain ⟨f, inner⟩ := entered
      obtain ⟨rfl, hfresh, rfl⟩ := Scopes.enter_ok henter
      simp only [henter, bindParams_eq, List.map_reverse, List.reverse_reverse] at h
      obtain ⟨⟨bodyLines, last⟩, hbody, h⟩ := bind_eq_ok_iff.1 h
      cases h
      refine ⟨bodyLines, last, hparams, hfresh, hbody, ?_, rfl⟩
      simp [bodyItems, leaving, paramSets]

theorem assign_ok {target : Ident} {value : Expr}
    (h : statement scopes (.assign target value) = .ok (lines, scopes')) :
    ∃ commands, expression scopes value = .ok commands ∧
      Line.items lines = commands.map .command ++
        [.command (.set (scopes.qualify target.val).qualified)] ∧
      scopes' = scopes.grow [scopes.qualify target.val] [] [] := by
  rw [statement] at h
  obtain ⟨commands, hvalue, h⟩ := bind_eq_ok_iff.1 h
  rw [Scopes.bind_eq] at h
  cases h
  exact ⟨commands, hvalue, by simp, rfl⟩

theorem giveBack_ok {value : Expr} {span : Span}
    (h : statement scopes (.giveBack value span) = .ok (lines, scopes')) :
    scopes.depth ≠ 0 ∧ scopes' = scopes ∧ ∃ commands, expression scopes value = .ok commands ∧
      Line.items lines = (commands ++ leave scopes).map .command := by
  rw [statement] at h
  by_cases hdepth : scopes.depth = 0
  · simp [hdepth, refuse, bind, Except.bind] at h
  · simp only [hdepth, if_false] at h
    obtain ⟨commands, hvalue, h⟩ := bind_eq_ok_iff.1 h
    cases h
    exact ⟨hdepth, rfl, commands, hvalue, by simp⟩

theorem eval_ok {value : Expr}
    (h : statement scopes (.eval value) = .ok (lines, scopes')) :
    scopes' = scopes ∧ ∃ commands, effect scopes value = .ok commands ∧
      Line.items lines = commands.map .command := by
  rw [statement] at h
  obtain ⟨commands, hvalue, h⟩ := bind_eq_ok_iff.1 h
  cases h
  exact ⟨rfl, commands, hvalue, by simp⟩

theorem statements_cons_ok {s : Stmt} {ss : List Stmt}
    (h : statements scopes (s :: ss) = .ok (lines, scopes')) :
    ∃ first mid rest, statement scopes s = .ok (first, mid) ∧
      statements mid ss = .ok (rest, scopes') ∧ lines = first ++ rest := by
  rw [statements] at h
  obtain ⟨⟨first, mid⟩, hfirst, h⟩ := bind_eq_ok_iff.1 h
  obtain ⟨⟨rest, last⟩, hrest, h⟩ := bind_eq_ok_iff.1 h
  cases h
  exact ⟨first, mid, rest, hfirst, hrest, rfl⟩

theorem statements_append_ok {ss more : List Stmt}
    (h : statements scopes (ss ++ more) = .ok (lines, scopes')) :
    ∃ first mid rest, statements scopes ss = .ok (first, mid) ∧
      statements mid more = .ok (rest, scopes') ∧ lines = first ++ rest := by
  induction ss generalizing scopes lines with
  | nil => exact ⟨[], scopes, lines, by rw [statements], h, rfl⟩
  | cons s ss ih =>
      obtain ⟨head, next, tail, hhead, htail, rfl⟩ := statements_cons_ok h
      obtain ⟨first, mid, rest, hfirst, hrest, rfl⟩ := ih htail
      refine ⟨head ++ first, mid, rest, ?_, hrest, (List.append_assoc _ _ _).symm⟩
      rw [statements]
      exact bind_eq_ok_iff.2 ⟨_, hhead, bind_eq_ok_iff.2 ⟨_, hfirst, rfl⟩⟩

end Compile

namespace Source

/-- What assignments among the statements bind, those inside functions left out. -/
def assigned (path : List String) (ss : List Stmt) : List ScopedName :=
  ss.filterMap fun
    | .assign target _ => some (qualifiedBy path target.val)
    | _ => none

end Source

namespace Compile

variable {scopes scopes' : Scopes} {lines : List Line}

/-- How scopes grow along statements. -/
def GrowsBy (scopes scopes' : Scopes) (ss : List Stmt) : Prop :=
  ∃ functions, scopes' = scopes.grow (assigned scopes.path ss).reverse functions
    ((Stmt.definitionsOfAll scopes.path ss).map (·.id.qualified)).reverse

theorem path_bodyScopes (scopes : Scopes) (name : String) (params : List Ident) :
    (bodyScopes scopes (scopes.qualify name) params).path = scopes.path ++ [name] := by
  simp [bodyScopes, Scopes.qualify_eq, qualifiedBy]

/-- A definition leaves an entry and the names of its functions. -/
theorem exit_of_growsBy {name : Ident} {params : List Ident} {body : List Stmt} {last : Scopes}
    (h : GrowsBy (bodyScopes scopes (scopes.qualify name.val) params) last body) :
    (last.exit?.map (·.2)).getD last = scopes.grow [] [⟨scopes.qualify name.val, params.length⟩]
      ((Stmt.definitions scopes.path (.define name params body)).map (·.id.qualified)).reverse := by
  obtain ⟨functions, rfl⟩ := h
  rw [path_bodyScopes]
  simp only [bodyScopes, Scopes.grow_grow, Scopes.exit_inside, Option.getD_some]
  simp [Stmt.definitions, Scopes.qualify_eq]

theorem growsBy_of_statements {ss : List Stmt}
    (h : statements scopes ss = .ok (lines, scopes')) : GrowsBy scopes scopes' ss := by
  induction ss using Stmt.induction_all generalizing scopes scopes' lines with
  | nil =>
      rw [statements] at h
      cases h
      exact ⟨[], by simp [assigned, Stmt.definitionsOfAll, Scopes.grow_nil]⟩
  | define name params body ss ihbody ih =>
      obtain ⟨first, mid, rest, hfirst, hrest, rfl⟩ := statements_cons_ok h
      obtain ⟨bodyLines, last, -, -, hbody, -, rfl⟩ := define_ok hfirst
      obtain ⟨functions, rfl⟩ := exit_of_growsBy (ihbody hbody) ▸ ih hrest
      refine ⟨functions ++ [⟨scopes.qualify name.val, params.length⟩], ?_⟩
      simp [Scopes.grow_grow, assigned, Stmt.definitionsOfAll]
  | assign target value ss ih =>
      obtain ⟨first, mid, rest, hfirst, hrest, rfl⟩ := statements_cons_ok h
      obtain ⟨-, -, -, rfl⟩ := assign_ok hfirst
      obtain ⟨functions, rfl⟩ := ih hrest
      refine ⟨functions, ?_⟩
      simp [Scopes.grow_grow, assigned, Stmt.definitionsOfAll, Stmt.definitions,
        Scopes.qualify_eq]
  | giveBack value span ss ih =>
      obtain ⟨first, mid, rest, hfirst, hrest, rfl⟩ := statements_cons_ok h
      obtain ⟨-, rfl, -⟩ := giveBack_ok hfirst
      simpa [GrowsBy, assigned, Stmt.definitionsOfAll, Stmt.definitions] using ih hrest
  | eval value ss ih =>
      obtain ⟨first, mid, rest, hfirst, hrest, rfl⟩ := statements_cons_ok h
      obtain ⟨rfl, -⟩ := eval_ok hfirst
      simpa [GrowsBy, assigned, Stmt.definitionsOfAll, Stmt.definitions] using ih hrest

theorem growsBy_of_statement {s : Stmt} (h : statement scopes s = .ok (lines, scopes')) :
    GrowsBy scopes scopes' [s] := by
  have hsingle : statements scopes [s] = .ok (lines, scopes') := by
    simp [statements, h, bind, Except.bind, pure, Except.pure]
  exact growsBy_of_statements hsingle

theorem path_of_statement {s : Stmt} (h : statement scopes s = .ok (lines, scopes')) :
    scopes'.path = scopes.path := by
  obtain ⟨functions, rfl⟩ := growsBy_of_statement h
  rw [Scopes.path_grow]

end Compile

end StackCalc
