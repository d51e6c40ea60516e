import StackCalc.Proofs.Renaming

/-!
# Renamed programs compiled

Compiling a renamed program in renamed scopes gives the renamed lines, or the renamed error. What
compiling asks of names is whether two of them are the same, and whether one is `print`; a renaming
changes neither.
-/

namespace StackCalc

open Assembly Source

/-- The functions around a place go by identifiers, and no visible function by an end label. -/
structure Scopes.Plain (scopes : Scopes) : Prop where
  path : ∀ outer ∈ scopes.path, IsIdentifier outer
  functions : ∀ f ∈ scopes.visible.flatMap (·.functions), f.id.qualified.toList.head? ≠ some '@'

namespace Scopes.Plain

variable {scopes : Scopes}

theorem empty : Plain .empty := by
  constructor <;> simp [Scopes.empty, Scopes.path, Scopes.visible, Scope.empty]

theorem head_ne (h : scopes.Plain) {name : String} (hname : IsIdentifier name) :
    (scopes.qualify name).qualified.toList.head? ≠ some '@' :=
  (isQualified_qualifiedBy h.path hname).2

theorem grow (h : scopes.Plain) (vars : List ScopedName) {functions : List FunctionEntry}
    (names : List String)
    (hfunctions : ∀ f ∈ functions, f.id.qualified.toList.head? ≠ some '@') :
    (scopes.grow vars functions names).Plain := by
  refine ⟨by simpa using h.path, fun f hf => ?_⟩
  rw [Scopes.functions_grow, List.mem_append] at hf
  exact hf.elim (hfunctions f) (h.functions f)

theorem bodyScopes (h : scopes.Plain) {name : Ident} (hname : IsIdentifier name.val)
    (params : List Ident) :
    (Compile.bodyScopes scopes (scopes.qualify name.val) params).Plain := by
  refine Plain.grow ⟨?_, ?_⟩ _ [] nofun
  · intro outer houter
    rw [Scopes.path_inside, List.mem_append, List.mem_singleton] at houter
    rcases houter with houter | rfl
    · exact h.path outer houter
    · exact hname
  · intro f hf
    rw [Scopes.functions_inside, List.mem_cons] at hf
    rcases hf with rfl | hf
    · exact h.head_ne hname
    · exact h.functions f hf

/-- Statements leave scopes plain that were. -/
theorem past (h : scopes.Plain) {s : Stmt} {numbers : Number → Prop}
    (hover : s.Over IsIdentifier numbers) {lines : List Line} {scopes' : Scopes}
    (hs : Compile.statement scopes s = .ok (lines, scopes')) : scopes'.Plain := by
  cases s with
  | define name params body =>
      obtain ⟨bodyLines, last, -, -, hbody, -, rfl⟩ := Compile.define_ok hs
      rw [Compile.exit_of_growsBy (Compile.growsBy_of_statements hbody)]
      exact h.grow [] _ (by simpa using h.head_ne hover.1)
  | assign target value =>
      obtain ⟨-, -, -, rfl⟩ := Compile.assign_ok hs
      exact h.grow _ [] nofun
  | giveBack value span =>
      obtain ⟨-, rfl, -⟩ := Compile.giveBack_ok hs
      exact h
  | eval value =>
      obtain ⟨rfl, -⟩ := Compile.eval_ok hs
      exact h

end Scopes.Plain

/-- The parameters of a function bound at the beginning of its body, the last one first. -/
theorem Compile.bindParams_inside (scopes : Scopes) (f : ScopedName) (params : List Ident) :
    bindParams (scopes.inside f params.length) params.reverse =
      (paramSets (scopes.inside f params.length) params, bodyScopes scopes f params) := by
  rw [bindParams_eq, List.map_reverse, List.map_reverse, List.reverse_reverse, paramSets,
    List.map_reverse]
  rfl

namespace Renaming

variable (ρ : Renaming)

section Checks

variable {α α' β β' : Type} {x : Checked α} {f : α → α'} {g : β → β'}
  {next : α → Checked β} {next' : α' → Checked β'}

theorem checked_bind (h : ∀ v, x = .ok v → next' (f v) = ρ.checked g (next v)) :
    ρ.checked f x >>= next' = ρ.checked g (x >>= next) := by
  cases x with
  | error e => rfl
  | ok v => exact h v rfl

theorem repeated?_ident (seen : List String) (params : List Ident) :
    repeated? (seen.map ρ) (params.map ρ.ident) = (repeated? seen params).map ρ.ident := by
  induction params generalizing seen with
  | nil => rfl
  | cons p params ih =>
      have hmem : (ρ.ident p).val ∈ seen.map ρ ↔ p.val ∈ seen :=
        List.mem_map_of_injective ρ.apply_injective
      rw [List.map_cons, repeated?, repeated?]
      by_cases hp : p.val ∈ seen
      · rw [if_pos hp, if_pos (hmem.2 hp)]
        rfl
      · rw [if_neg hp, if_neg (mt hmem.1 hp)]
        exact ih (p.val :: seen)

theorem checkParams_ident (params : List Ident) :
    checkParams (params.map ρ.ident) = ρ.checked id (checkParams params) := by
  rw [checkParams, checkParams]
  have hrepeated := ρ.repeated?_ident [] params
  rw [List.map_nil] at hrepeated
  rw [hrepeated]
  cases repeated? [] params <;> rfl

def callee : Callee FunctionEntry → Callee FunctionEntry
  | .function f => .function (ρ.entry f)
  | .print => .print

theorem resolve_entry (found : Option FunctionEntry) (name : Ident) (count : Nat) :
    Callee.resolve (found.map ρ.entry) (·.arity) (ρ.ident name) count =
      ρ.checked ρ.callee (Callee.resolve found (·.arity) name count) := by
  unfold Callee.resolve Callee.ofName?
  cases found with
  | none =>
      by_cases hname : name.val = printName
      · have hname' : (ρ.ident name).val = printName := ρ.apply_eq_print.2 hname
        simp only [Option.map_none, if_pos hname, if_pos hname']
        split <;> rfl
      · have hname' : (ρ.ident name).val ≠ printName := mt ρ.apply_eq_print.1 hname
        simp only [Option.map_none, if_neg hname, if_neg hname']
        rfl
  | some f =>
      simp only [Option.map_some, entry]
      split <;> rfl

theorem callee_scopes (s : Scopes) (name : Ident) (count : Nat) :
    Compile.callee (ρ.scopes s) (ρ.ident name) count =
      ρ.checked ρ.callee (Compile.callee s name count) := by
  have hfound : (ρ.scopes s).findFunction? (ρ name.val) =
      (s.findFunction? name.val).map ρ.entry := ρ.findFunction?_scopes
  rw [Compile.callee, Compile.callee, ← resolve_entry, ← hfound]
  rfl

end Checks

section Expressions

variable {s : Scopes}

theorem length_exprs (es : List Expr) : (ρ.exprs es).length = es.length := by
  induction es with
  | nil => rfl
  | cons e es ih => rw [exprs, List.length_cons, List.length_cons, ih]

theorem arguments_exprs {es : List Expr}
    (hes : ∀ e ∈ es, Compile.expression (ρ.scopes s) (ρ.expr e) =
      ρ.checked (List.map ρ.command) (Compile.expression s e)) :
    Compile.arguments (ρ.scopes s) (ρ.exprs es) =
      ρ.checked (List.map ρ.command) (Compile.arguments s es) := by
  induction es with
  | nil => rfl
  | cons e es ih =>
      rw [exprs, Compile.arguments, Compile.arguments, hes e List.mem_cons_self,
        ih fun e he => hes e (List.mem_cons_of_mem _ he)]
      refine ρ.checked_bind fun first _ => ρ.checked_bind fun rest _ => ?_
      exact congrArg Except.ok List.map_append.symm

/-- The call of a visible function goes to the renamed function. -/
theorem command_call (hplain : s.Plain) {name : Ident} {count : Nat} {f : FunctionEntry}
    (hf : Compile.callee s name count = .ok (.function f)) :
    ρ.command (.call f.id.qualified) = .call (ρ.entry f).id.qualified := by
  have hmem := List.mem_of_find?_eq_some (Callee.resolve_function hf).1
  rw [command, ρ.label_of_head_ne (hplain.functions f hmem)]
  rfl

theorem expression_expr (hplain : s.Plain) (e : Expr) :
    Compile.expression (ρ.scopes s) (ρ.expr e) =
      ρ.checked (List.map ρ.command) (Compile.expression s e) := by
  induction e using Expr.induction_args with
  | number value => rfl
  | var name =>
      have hfound : (ρ.scopes s).findVariable? (ρ name.val) =
          (s.findVariable? name.val).map ρ.scopedName := ρ.findVariable?_scopes
      rw [expr, Compile.expression, Compile.expression, ident, hfound]
      cases s.findVariable? name.val <;> rfl
  | binary op lhs rhs ihl ihr =>
      rw [expr, Compile.expression, Compile.expression, ihl, ihr]
      refine ρ.checked_bind fun right _ => ρ.checked_bind fun left _ => ?_
      exact congrArg Except.ok (by simp [command])
  | call name args ih =>
      rw [expr, Compile.expression, Compile.expression, length_exprs, callee_scopes]
      refine ρ.checked_bind fun callee hcallee => ?_
      cases callee with
      | print => rfl
      | function f =>
          have harguments := ρ.arguments_exprs ih
          dsimp only [Renaming.callee]
          rw [harguments, ← ρ.command_call hplain hcallee]
          exact ρ.checked_bind fun before _ => congrArg Except.ok (by simp)

theorem effect_expr (hplain : s.Plain) (e : Expr) :
    Compile.effect (ρ.scopes s) (ρ.expr e) =
      ρ.checked (List.map ρ.command) (Compile.effect s e) := by
  have hexpression := ρ.expression_expr hplain
  cases e with
  | call name args =>
      rw [expr, Compile.effect, Compile.effect, length_exprs, callee_scopes]
      refine ρ.checked_bind fun callee hcallee => ?_
      have harguments := ρ.arguments_exprs fun e (_ : e ∈ args) => hexpression e
      cases callee with
      | print =>
          dsimp only [Renaming.callee]
          rw [harguments]
          refine ρ.checked_bind fun before _ => congrArg Except.ok ?_
          rw [List.map_append]
          rfl
      | function f =>
          dsimp only [Renaming.callee]
          rw [harguments, ← ρ.command_call hplain hcallee]
          refine ρ.checked_bind fun before _ => congrArg Except.ok ?_
          rw [List.map_append]
          rfl
  | number value | «variable» name | binary op lhs rhs =>
      refine (congrArg (· >>= fun before => pure (before ++ [.pop])) (hexpression _)).trans ?_
      refine ρ.checked_bind fun before _ => congrArg Except.ok ?_
      rw [List.map_append]
      rfl

end Expressions

section Statements

variable {s : Scopes} {numbers : Number → Prop}

theorem leave_scopes : Compile.leave (ρ.scopes s) = (Compile.leave s).map ρ.command := by
  rw [Compile.leave, Compile.leave, frameBindings_scopes]
  simp [command, scopedName]

theorem commands_line (depth : Nat) (cs : List Command) :
    Line.commands depth (cs.map ρ.command) = (Line.commands depth cs).map ρ.line := by
  simp [Line.commands, line, item]

theorem fallsThrough_stmts (body : List Stmt) :
    Compile.fallsThrough (ρ.stmts body) = Compile.fallsThrough body := by
  have hmap : ρ.stmts body = body.map ρ.stmt := by
    induction body with
    | nil => rfl
    | cons s ss ih => rw [stmts, ih, List.map_cons]
  rw [Compile.fallsThrough, Compile.fallsThrough, hmap, List.getLast?_map]
  cases body.getLast? with
  | none => rfl
  | some last => cases last <;> rfl

theorem enter?_scopes (hplain : s.Plain) {name : String} (hname : IsIdentifier name)
    (arity : Nat) : (ρ.scopes s).enter? (ρ name) arity =
      (s.enter? name arity).map fun r => (ρ.scopedName r.1, ρ.scopes r.2) := by
  have hqualify := ρ.qualify_scopes hplain.path hname
  have hmem : (ρ.scopedName (s.qualify name)).qualified ∈ (ρ.scopes s).defined ↔
      (s.qualify name).qualified ∈ s.defined :=
    List.mem_map_of_injective ρ.qualified_injective
  unfold Scopes.enter?
  dsimp only
  rw [hqualify]
  by_cases hgiven : (s.qualify name).qualified ∈ s.defined
  · rw [if_pos hgiven, if_pos (hmem.2 hgiven)]
    rfl
  · rw [if_neg hgiven, if_neg (mt hmem.1 hgiven)]
    exact congrArg (fun inner => some (_, inner)) (ρ.scopes_inside _ arity).symm

theorem bindParams_scopes (hpath : ∀ outer ∈ s.path, IsIdentifier outer) {params : List Ident}
    (hparams : ∀ p ∈ params, IsIdentifier p.val) :
    Compile.bindParams (ρ.scopes s) (params.map ρ.ident) =
      ((Compile.bindParams s params).1.map ρ.command,
        ρ.scopes (Compile.bindParams s params).2) := by
  have hqualify : ∀ p ∈ params, (ρ.scopes s).qualify (ρ.ident p).val =
      ρ.scopedName (s.qualify p.val) := fun p hp => ρ.qualify_scopes hpath (hparams p hp)
  have hnames : (params.map ρ.ident).map (fun p => (ρ.scopes s).qualify p.val) =
      (params.map fun p => s.qualify p.val).map ρ.scopedName := by
    rw [List.map_map, List.map_map]
    exact List.map_congr_left hqualify
  have hsets : (params.map ρ.ident).map
        (fun p => (.set ((ρ.scopes s).qualify p.val).qualified : Command)) =
      (params.map fun p => .set (s.qualify p.val).qualified).map ρ.command := by
    rw [List.map_map, List.map_map]
    refine List.map_congr_left fun p hp => ?_
    rw [Function.comp_apply, Function.comp_apply, hqualify p hp]
    rfl
  rw [Compile.bindParams_eq, Compile.bindParams_eq, scopes_grow, hnames, hsets, List.map_reverse]
  rfl

theorem getD_exit?_scopes : ((ρ.scopes s).exit?.map (·.2)).getD (ρ.scopes s) =
    ρ.scopes ((s.exit?.map (·.2)).getD s) := by
  rw [exit?_scopes]
  cases s.exit? <;> rfl

/-- What compiling statements gives, renamed. -/
def compiled : List Line × Scopes → List Line × Scopes :=
  Prod.map (List.map ρ.line) ρ.scopes

/-- The statements of a body are compiled from plain scopes to renamed lines. -/
def Compiles (body : List Stmt) : Prop :=
  ∀ s : Scopes, s.Plain → Compile.statements (ρ.scopes s) (ρ.stmts body) =
    ρ.checked ρ.compiled (Compile.statements s body)

theorem define_stmt (hplain : s.Plain) {name : Ident} {params : List Ident} {body : List Stmt}
    (hname : IsIdentifier name.val) (hparams : ∀ p ∈ params, IsIdentifier p.val)
    (hbody : ρ.Compiles body) :
    Compile.statement (ρ.scopes s) (ρ.stmt (.define name params body)) =
      ρ.checked ρ.compiled (Compile.statement s (.define name params body)) := by
  rw [stmt, Compile.statement, Compile.statement, checkParams_ident]
  refine ρ.checked_bind fun _ _ => ?_
  have henter := ρ.enter?_scopes hplain hname params.length
  rw [List.length_map, ident, henter]
  cases hentered : s.enter? name.val params.length with
  | none => rfl
  | some r =>
      obtain ⟨f, inner⟩ := r
      obtain ⟨rfl, -, rfl⟩ := Scopes.enter_ok hentered
      have hinside := hplain.bodyScopes hname params
      have hparams' : ∀ p ∈ params.reverse, IsIdentifier p.val :=
        fun p hp => hparams p (List.mem_reverse.1 hp)
      have hpath : ∀ outer ∈ (s.inside (s.qualify name.val) params.length).path,
          IsIdentifier outer := by
        have hpath := hinside.path
        rwa [Compile.bodyScopes, Scopes.path_grow] at hpath
      have hbound := ρ.bindParams_scopes hpath hparams'
      have hentry := Compile.bindParams_inside s (s.qualify name.val) params
      simp only [Option.map_some, ← List.map_reverse, hbound, hentry]
      rw [hbody _ hinside]
      refine ρ.checked_bind fun r _ => congrArg Except.ok ?_
      obtain ⟨lines, last⟩ := r
      have hlabel := ρ.label_of_head_ne (hplain.head_ne hname)
      refine Prod.ext ?_ ρ.getD_exit?_scopes
      have hzero : (if Compile.fallsThrough body then [.push .zero] else []).map ρ.command =
          if Compile.fallsThrough body then [.push .zero] else [] := by
        split <;> rfl
      simp only [compiled, Prod.map_apply, List.map_append, ← commands_line, depth_scopes,
        leave_scopes, fallsThrough_stmts, hzero, List.map_cons, List.map_nil, line, item, command,
        label_endLabel, hlabel]
      rfl

theorem statement_stmt (hplain : s.Plain) {stmt : Stmt} (hover : stmt.Over IsIdentifier numbers)
    (hbody : ∀ name params body, stmt = .define name params body → ρ.Compiles body) :
    Compile.statement (ρ.scopes s) (ρ.stmt stmt) =
      ρ.checked ρ.compiled (Compile.statement s stmt) := by
  cases stmt with
  | define name params body =>
      obtain ⟨hname, hparams, -⟩ := hover
      exact ρ.define_stmt hplain hname hparams (hbody name params body rfl)
  | assign target value =>
      have hqualify := ρ.qualify_scopes hplain.path hover.1
      simp only [Renaming.stmt, Compile.statement, Scopes.bind_eq]
      rw [expression_expr _ hplain]
      refine ρ.checked_bind fun commands _ => congrArg Except.ok ?_
      have hgrow := ρ.scopes_grow (s := s) [s.qualify target.val] [] []
      refine Prod.ext ?_ ?_
      · rw [ident, hqualify, Scopes.depth_grow, depth_scopes]
        simp [compiled, ← commands_line, command, scopedName]
      · rw [ident, hqualify]
        exact hgrow.symm
  | giveBack value span =>
      rw [Renaming.stmt, Compile.statement, Compile.statement, depth_scopes]
      by_cases hdepth : s.depth = 0
      · rw [if_pos hdepth, if_pos hdepth]
        rfl
      · rw [if_neg hdepth, if_neg hdepth, expression_expr _ hplain]
        refine ρ.checked_bind fun commands _ => congrArg Except.ok ?_
        rw [compiled, leave_scopes, Prod.map_apply, ← commands_line, List.map_append]
  | eval value =>
      rw [Renaming.stmt, Compile.statement, Compile.statement, effect_expr _ hplain]
      refine ρ.checked_bind fun commands _ => congrArg Except.ok ?_
      rw [compiled, depth_scopes, commands_line]
      rfl

theorem compiles {body : List Stmt} (hover : Stmt.AllOver IsIdentifier numbers body) :
    ρ.Compiles body := by
  have hcons {stmt : Stmt} {ss : List Stmt} (hstmt : stmt.Over IsIdentifier numbers)
      (hbody : ∀ name params body, stmt = .define name params body → ρ.Compiles body)
      (hss : ρ.Compiles ss) : ρ.Compiles (stmt :: ss) := by
    intro s hplain
    rw [stmts, Compile.statements, Compile.statements, ρ.statement_stmt hplain hstmt hbody]
    refine ρ.checked_bind fun r hr => ?_
    obtain ⟨first, mid⟩ := r
    dsimp only [compiled, Prod.map_apply]
    rw [hss mid (hplain.past hstmt hr)]
    refine ρ.checked_bind fun r _ => congrArg Except.ok ?_
    simp [compiled]
  induction body using Stmt.induction_all with
  | nil => exact fun s _ => rfl
  | define name params body ss ihbody ih =>
      refine hcons hover.1 (fun _ _ body' heq => ?_) (ih hover.2)
      cases heq
      exact ihbody hover.1.2.2
  | assign target value ss ih | giveBack value span ss ih | eval value ss ih =>
      refine hcons hover.1 (fun _ _ _ heq => ?_) (ih hover.2)
      cases heq

end Statements

/-- A renamed program is compiled to the renamed lines, or refused for the same reason at the same
place. -/
theorem compile_program {p : Program} {numbers : Number → Prop}
    (hover : p.Over IsIdentifier numbers) :
    (ρ.program p).compile = ρ.checked (List.map ρ.line) p.compile := by
  have hstatements := ρ.compiles hover .empty .empty
  have hempty : ρ.scopes .empty = .empty := rfl
  rw [hempty] at hstatements
  rw [Program.compile, Program.compile, program, hstatements]
  exact ρ.checked_bind fun r _ => rfl

theorem assembly_program {p : Program} {numbers : Number → Prop}
    (hover : p.Over IsIdentifier numbers) :
    (ρ.program p).assembly.isOk = p.assembly.isOk ∧
      ∀ e, p.assembly = .error e →
        (ρ.program p).assembly = .error { e with val := ρ.error e.val } := by
  rw [Program.assembly, Program.assembly, ρ.compile_program hover]
  cases p.compile with
  | ok lines => exact ⟨rfl, nofun⟩
  | error e =>
      refine ⟨rfl, ?_⟩
      rintro _ ⟨⟩
      rfl

section Over

variable {numbers : Number → Prop}

theorem over_expr {e : Expr} (h : e.Over IsIdentifier numbers) :
    (ρ.expr e).Over IsIdentifier numbers := by
  induction e using Expr.induction_args with
  | number value => exact h
  | var name => exact ρ.isIdentifier_apply h
  | binary op lhs rhs ihl ihr => exact ⟨ihl h.1, ihr h.2⟩
  | call name args ih =>
      have hargs := Expr.allOver_iff.1 h.2
      refine ⟨ρ.isIdentifier_apply h.1, ?_⟩
      clear h
      induction args with
      | nil => trivial
      | cons e es ihes =>
          obtain ⟨he, hes⟩ := List.forall_mem_cons.1 hargs
          obtain ⟨ihe, ihrest⟩ := List.forall_mem_cons.1 ih
          exact ⟨ihe he, ihes ihrest hes⟩

theorem over_stmts {ss : List Stmt} (h : Stmt.AllOver IsIdentifier numbers ss) :
    Stmt.AllOver IsIdentifier numbers (ρ.stmts ss) := by
  induction ss using Stmt.induction_all with
  | nil => trivial
  | define name params body ss ihbody ih =>
      obtain ⟨⟨hname, hparams, hbody⟩, hss⟩ := h
      refine ⟨⟨ρ.isIdentifier_apply hname, ?_, ihbody hbody⟩, ih hss⟩
      intro p hp
      obtain ⟨q, hq, rfl⟩ := List.mem_map.1 hp
      exact ρ.isIdentifier_apply (hparams q hq)
  | assign target value ss ih =>
      exact ⟨⟨ρ.isIdentifier_apply h.1.1, ρ.over_expr h.1.2⟩, ih h.2⟩
  | giveBack value span ss ih | eval value ss ih => exact ⟨ρ.over_expr h.1, ih h.2⟩

end Over

end Renaming

end StackCalc
