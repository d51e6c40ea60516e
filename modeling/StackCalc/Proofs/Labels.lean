import StackCalc.Proofs.Scoping
import StackCalc.Proofs.Verdict
import StackCalc.Toolchain

/-!
# The assembly of a compiled program

The items that a program is compiled to name only what is defined among them: their labels are the
two of each function of the program, each once, and every jump and call leads to one of them. What
is left to refuse such a unit is a hash that two names share, or a unit too large for its
addresses.
-/

namespace StackCalc

open Assembly Source

namespace Assembly

/-- A command that can be written and read, whose target is among labels, and that asks for no
other interrupt than printing. -/
def Command.Fits (labels : List String) : Command → Prop
  | .jump target | .call target => IsName target ∧ target ∈ labels
  | .set name | .get name | .unset name => IsName name
  | .push value => value.isFinite = true
  | .interrupt value => value = .zero
  | .ret | .arith _ | .pop => True

def Item.Fits (labels : List String) : Item → Prop
  | .label name => IsName name
  | .command c => c.Fits labels

variable {labels : List String}

theorem Item.Fits.readable {i : Item} (h : i.Fits labels) : i.Readable := by
  cases i with
  | label name => exact h
  | command c =>
      cases c with
      | jump target | call target => exact h.1
      | set name | get name | unset name | push value => exact h
      | interrupt value =>
          have hzero : value = .zero := h
          rw [hzero]
          exact (by decide : Number.zero.isFinite = true)
      | ret | arith op | pop => trivial

theorem Item.Fits.mono {labels' : List String} {i : Item} (h : i.Fits labels)
    (hsub : labels ⊆ labels') : i.Fits labels' := by
  cases i with
  | label name => exact h
  | command c =>
      cases c with
      | jump target | call target => exact ⟨h.1, hsub h.2⟩
      | set name | get name | unset name | push value | interrupt value => exact h
      | ret | arith op | pop => trivial

end Assembly

namespace Source

variable {names : String → Prop} {numbers : Number → Prop} {path : List String} {ss : List Stmt}

theorem isQualified_of_definitions (hpath : ∀ outer ∈ path, IsIdentifier outer)
    (hover : Stmt.AllOver IsIdentifier numbers ss) :
    ∀ d ∈ Stmt.definitionsOfAll path ss, IsQualified d.id.qualified := by
  induction ss using Stmt.induction_all generalizing path with
  | nil => simp [Stmt.definitionsOfAll]
  | define name params body ss ihbody ih =>
      obtain ⟨⟨hname, -, hbody⟩, hss⟩ := hover
      have hinner : ∀ outer ∈ path ++ [name.val], IsIdentifier outer := by
        intro outer houter
        rcases List.mem_append.1 houter with houter | houter
        · exact hpath outer houter
        · rwa [List.mem_singleton.1 houter]
      intro d hd
      simp only [Stmt.definitionsOfAll, Stmt.definitions, List.cons_append, List.mem_cons,
        List.mem_append] at hd
      rcases hd with rfl | hd | hd
      · exact isQualified_qualifiedBy hpath hname
      · exact ihbody hinner hbody d hd
      · exact ih hpath hss d hd
  | assign target value ss ih | giveBack value span ss ih | eval value ss ih =>
      simpa only [Stmt.definitionsOfAll, Stmt.definitions, List.nil_append] using ih hpath hover.2

/-- No label is given twice if no qualified name is. -/
theorem nodup_labels {ds : List Definition} (hnames : (ds.map (·.id.qualified)).Nodup)
    (h : ∀ d ∈ ds, IsQualified d.id.qualified) : (ds.flatMap Definition.labels).Nodup := by
  induction ds with
  | nil => exact List.nodup_nil
  | cons d ds ih =>
      rw [List.map_cons, List.nodup_cons] at hnames
      have hd := h d (by simp)
      have hds : ∀ e ∈ ds, IsQualified e.id.qualified := fun e he => h e (by simp [he])
      rw [List.flatMap_cons, List.nodup_append]
      refine ⟨?_, ih hnames.2 hds, ?_⟩
      · simpa [Definition.labels] using (endLabel_ne_of_isQualified hd).symm
      · intro x hx y hy
        obtain ⟨e, he, hy⟩ := List.mem_flatMap.1 hy
        have hne : d.id.qualified ≠ e.id.qualified := by
          intro heq
          exact hnames.1 (heq ▸ List.mem_map_of_mem (f := fun d => d.id.qualified) he)
        simp only [Definition.labels, List.mem_cons, List.not_mem_nil, or_false] at hx hy
        rcases hx with rfl | rfl <;> rcases hy with rfl | rfl
        · exact hne
        · exact (endLabel_ne_of_isQualified hd).symm
        · exact endLabel_ne_of_isQualified (hds e he)
        · exact fun heq => hne (qualified_eq_of_endLabel heq)

end Source

/-- What is visible goes by words of assembly, and functions by labels. -/
structure Scopes.Named (labels : List String) (scopes : Scopes) : Prop where
  path : ∀ outer ∈ scopes.path, IsIdentifier outer
  vars : ∀ x ∈ scopes.visible.flatMap (·.vars), IsName x.qualified
  functions : ∀ f ∈ scopes.visible.flatMap (·.functions),
    IsName f.id.qualified ∧ f.id.qualified ∈ labels

namespace Scopes

variable {labels : List String} {scopes : Scopes}

theorem Named.empty : Named labels .empty := by
  constructor <;> simp [Scopes.empty, Scopes.path, visible, Scope.empty]

theorem Named.qualify (h : scopes.Named labels) {name : String} (hname : IsIdentifier name) :
    IsName (scopes.qualify name).qualified := (isQualified_qualifiedBy h.path hname).1

theorem Named.grow (h : scopes.Named labels) {vars : List ScopedName}
    {functions : List FunctionEntry} (names : List String)
    (hvars : ∀ x ∈ vars, IsName x.qualified)
    (hfunctions : ∀ f ∈ functions, IsName f.id.qualified ∧ f.id.qualified ∈ labels) :
    (scopes.grow vars functions names).Named labels := by
  refine ⟨by simpa using h.path, ?_, ?_⟩
  · intro x hx
    rw [vars_grow, List.mem_append] at hx
    exact hx.elim (hvars x) (h.vars x)
  · intro f hf
    rw [functions_grow, List.mem_append] at hf
    exact hf.elim (hfunctions f) (h.functions f)

theorem Named.inside (h : scopes.Named labels) {name : String} (hname : IsIdentifier name)
    (hlabel : (scopes.qualify name).qualified ∈ labels) (arity : Nat) :
    (scopes.inside (scopes.qualify name) arity).Named labels := by
  refine ⟨?_, by simpa only [vars_inside] using h.vars, ?_⟩
  · intro outer houter
    rw [path_inside, List.mem_append, List.mem_singleton] at houter
    rcases houter with houter | rfl
    · exact h.path outer houter
    · exact hname
  · intro f hf
    rw [functions_inside, List.mem_cons] at hf
    rcases hf with rfl | hf
    · exact ⟨h.qualify hname, hlabel⟩
    · exact h.functions f hf

theorem mem_vars_of_frameBindings {x : ScopedName} (h : x ∈ scopes.frameBindings) :
    x ∈ scopes.visible.flatMap (·.vars) := by
  obtain ⟨base, bodies, defined⟩ := scopes
  cases bodies with
  | nil => simpa [visible, frameBindings, innermost] using h
  | cons body bodies =>
      simp only [visible, List.map_cons, List.cons_append, List.flatMap_cons, List.mem_append]
      exact .inl h

end Scopes

namespace Compile

variable {labels : List String} {scopes scopes' : Scopes}

theorem arguments_fits {es : List Expr} {commands : List Command}
    (hes : ∀ e ∈ es, ∀ cs, expression scopes e = .ok cs → ∀ c ∈ cs, c.Fits labels)
    (h : arguments scopes es = .ok commands) : ∀ c ∈ commands, c.Fits labels := by
  induction es generalizing commands with
  | nil =>
      cases h
      simp
  | cons e es ih =>
      obtain ⟨first, rest, hfirst, hrest, rfl⟩ := arguments_cons_ok h
      have hlater : ∀ e ∈ es, ∀ cs, expression scopes e = .ok cs → ∀ c ∈ cs, c.Fits labels :=
        fun x hx => hes x (List.mem_cons_of_mem e hx)
      intro c hc
      rcases List.mem_append.1 hc with hc | hc
      · exact hes e (List.mem_cons_self ..) first hfirst c hc
      · exact ih hlater hrest c hc

theorem expression_fits (hn : scopes.Named labels) {e : Expr}
    (hover : e.Over IsIdentifier (fun value => value.isFinite = true)) {commands : List Command}
    (h : expression scopes e = .ok commands) : ∀ c ∈ commands, c.Fits labels := by
  induction e using Expr.induction_args generalizing commands with
  | number value =>
      cases h
      simpa [Command.Fits, Expr.Over] using hover
  | var name =>
      obtain ⟨x, hx, rfl⟩ := variable_ok h
      simpa [Command.Fits] using hn.vars x (List.mem_of_find?_eq_some hx)
  | binary op lhs rhs ihl ihr =>
      obtain ⟨right, left, hright, hleft, rfl⟩ := binary_ok h
      intro c hc
      rw [List.mem_append, List.mem_append, List.mem_singleton] at hc
      rcases hc with (hc | hc) | rfl
      · exact ihr hover.2 hright c hc
      · exact ihl hover.1 hleft c hc
      · trivial
  | call callee args ih =>
      obtain ⟨f, before, hf, -, hbefore, rfl⟩ := call_ok h
      have hargs := Expr.allOver_iff.1 hover.2
      intro c hc
      rw [List.mem_append, List.mem_singleton] at hc
      rcases hc with hc | rfl
      · exact arguments_fits (fun e he cs hcs => ih e he (hargs e he) hcs) hbefore c hc
      · exact hn.functions f (List.mem_of_find?_eq_some hf)

theorem effect_fits (hn : scopes.Named labels) {e : Expr}
    (hover : e.Over IsIdentifier (fun value => value.isFinite = true)) {commands : List Command}
    (h : effect scopes e = .ok commands) : ∀ c ∈ commands, c.Fits labels := by
  obtain ⟨name, arg, before, rfl, -, -, hbefore, rfl⟩ | ⟨before, hbefore, rfl⟩ := effect_ok h
  · intro c hc
    rw [List.mem_append, List.mem_singleton] at hc
    rcases hc with hc | rfl
    · exact expression_fits hn hover.2.1 hbefore c hc
    · exact (rfl : Number.zero = .zero)
  · intro c hc
    rw [List.mem_append, List.mem_singleton] at hc
    rcases hc with hc | rfl
    · exact expression_fits hn hover hbefore c hc
    · trivial

theorem leave_fits (hn : scopes.Named labels) : ∀ c ∈ leave scopes, c.Fits labels := by
  intro c hc
  rw [leave, List.mem_append, List.mem_map, List.mem_singleton] at hc
  rcases hc with ⟨x, hx, rfl⟩ | rfl
  · exact hn.vars x (Scopes.mem_vars_of_frameBindings hx)
  · trivial

theorem leaving_fits (hn : scopes.Named labels) (body : List Stmt) :
    ∀ c ∈ leaving body scopes, c.Fits labels := by
  intro c hc
  rw [leaving, List.mem_append] at hc
  rcases hc with hc | hc
  · split at hc
    · rw [List.mem_singleton.1 hc]
      exact (by decide : Number.zero.isFinite = true)
    · cases hc
  · exact leave_fits hn c hc

theorem named_bodyScopes (hn : scopes.Named labels) {name : Ident} {params : List Ident}
    (hname : IsIdentifier name.val) (hparams : ∀ p ∈ params, IsIdentifier p.val)
    (hlabel : (scopes.qualify name.val).qualified ∈ labels) :
    (bodyScopes scopes (scopes.qualify name.val) params).Named labels := by
  have hinside := hn.inside hname hlabel params.length
  refine hinside.grow [] ?_ (by simp)
  intro x hx
  obtain ⟨p, hp, rfl⟩ := List.mem_map.1 hx
  exact hinside.qualify (hparams p hp)

theorem define_fits (hn : scopes.Named labels) {name : Ident} {params : List Ident}
    {body : List Stmt} {bodyLines : List Line} {last : Scopes} (hname : IsIdentifier name.val)
    (hparams : ∀ p ∈ params, IsIdentifier p.val)
    (hentry : (scopes.qualify name.val).qualified ∈ labels)
    (hend : endLabel (scopes.qualify name.val) ∈ labels)
    (hbody : ∀ i ∈ Line.items bodyLines, i.Fits labels) (hlast : last.Named labels) :
    ∀ i ∈ [.command (.jump (endLabel (scopes.qualify name.val))),
        .label (scopes.qualify name.val).qualified] ++
      bodyItems (paramSets (scopes.inside (scopes.qualify name.val) params.length) params)
        bodyLines body last ++ [.label (endLabel (scopes.qualify name.val))], i.Fits labels := by
  have hinside := hn.inside hname hentry params.length
  intro i hi
  rw [bodyItems] at hi
  simp only [List.mem_append, List.mem_cons, List.not_mem_nil, or_false, List.mem_map,
    paramSets] at hi
  rcases hi with ((rfl | rfl) | (⟨c, ⟨p, hp, rfl⟩, rfl⟩ | hi) | ⟨c, hc, rfl⟩) | rfl
  · exact ⟨isName_endLabel (hn.qualify hname), hend⟩
  · exact hn.qualify hname
  · exact hinside.qualify (hparams p (List.mem_reverse.1 hp))
  · exact hbody i hi
  · exact leaving_fits hlast body c hc
  · exact isName_endLabel (hn.qualify hname)

theorem assign_fits (hn : scopes.Named labels) {target : Ident} {value : Expr} {lines : List Line}
    (htarget : IsIdentifier target.val)
    (hover : value.Over IsIdentifier (fun value => value.isFinite = true))
    (h : statement scopes (.assign target value) = .ok (lines, scopes')) :
    (∀ i ∈ Line.items lines, i.Fits labels) ∧ scopes'.Named labels := by
  obtain ⟨commands, hvalue, hitems, rfl⟩ := assign_ok h
  have hname := hn.qualify htarget
  refine ⟨?_, hn.grow [] (by simpa using hname) (by simp)⟩
  intro i hi
  rw [hitems, List.mem_append, List.mem_map, List.mem_singleton] at hi
  rcases hi with ⟨c, hc, rfl⟩ | rfl
  · exact expression_fits hn hover hvalue c hc
  · exact hname

theorem giveBack_fits (hn : scopes.Named labels) {value : Expr} {span : Span} {lines : List Line}
    (hover : value.Over IsIdentifier (fun value => value.isFinite = true))
    (h : statement scopes (.giveBack value span) = .ok (lines, scopes')) :
    ∀ i ∈ Line.items lines, i.Fits labels := by
  obtain ⟨-, -, commands, hvalue, hitems⟩ := giveBack_ok h
  intro i hi
  rw [hitems, List.mem_map] at hi
  obtain ⟨c, hc, rfl⟩ := hi
  rcases List.mem_append.1 hc with hc | hc
  · exact expression_fits hn hover hvalue c hc
  · exact leave_fits hn c hc

theorem eval_fits (hn : scopes.Named labels) {value : Expr} {lines : List Line}
    (hover : value.Over IsIdentifier (fun value => value.isFinite = true))
    (h : statement scopes (.eval value) = .ok (lines, scopes')) :
    ∀ i ∈ Line.items lines, i.Fits labels := by
  obtain ⟨-, commands, hvalue, hitems⟩ := eval_ok h
  intro i hi
  rw [hitems, List.mem_map] at hi
  obtain ⟨c, hc, rfl⟩ := hi
  exact effect_fits hn hover hvalue c hc

/-- Every item fits the labels of the functions that are visible or defined. -/
theorem statements_fits {ss : List Stmt} (hn : scopes.Named labels)
    (hover : Stmt.AllOver IsIdentifier (fun value => value.isFinite = true) ss)
    (hlabels : (Stmt.definitionsOfAll scopes.path ss).flatMap Definition.labels ⊆ labels)
    {lines : List Line} (h : statements scopes ss = .ok (lines, scopes')) :
    (∀ i ∈ Line.items lines, i.Fits labels) ∧ scopes'.Named labels := by
  induction ss using Stmt.induction_all generalizing scopes scopes' lines with
  | nil =>
      cases h
      exact ⟨by simp, hn⟩
  | define name params body ss ihbody ih =>
      obtain ⟨first, mid, rest, hfirst, hrest, rfl⟩ := statements_cons_ok h
      have hpath := path_of_statement hfirst
      obtain ⟨bodyLines, last, -, -, hbody, hitems, rfl⟩ := define_ok hfirst
      obtain ⟨⟨hname, hparams, hoverBody⟩, hoverRest⟩ := hover
      simp only [Stmt.definitionsOfAll, Stmt.definitions, List.cons_append, List.flatMap_cons,
        List.flatMap_append, List.append_subset, Definition.labels, List.cons_subset,
        ← Scopes.qualify_eq] at hlabels
      obtain ⟨hentry, hend, -, hlabelsBody, hlabelsRest⟩ := hlabels
      rw [← path_bodyScopes scopes name.val params] at hlabelsBody
      obtain ⟨hfits, hlast⟩ := ihbody (named_bodyScopes hn hname hparams hentry) hoverBody
        hlabelsBody hbody
      have hmid : (((last.exit?.map (·.2)).getD last).Named labels) := by
        rw [exit_of_growsBy (growsBy_of_statements hbody)]
        refine hn.grow _ (by simp) ?_
        simpa using ⟨hn.qualify hname, hentry⟩
      obtain ⟨hfitsRest, hscopes'⟩ := ih hmid hoverRest (by rwa [hpath]) hrest
      refine ⟨?_, hscopes'⟩
      rw [Line.items_append, hitems]
      exact List.forall_mem_append.2
        ⟨define_fits hn hname hparams hentry hend hfits hlast, hfitsRest⟩
  | assign target value ss ih =>
      obtain ⟨first, mid, rest, hfirst, hrest, rfl⟩ := statements_cons_ok h
      obtain ⟨hfits, hmid⟩ := assign_fits hn hover.1.1 hover.1.2 hfirst
      obtain ⟨hfitsRest, hscopes'⟩ := ih hmid hover.2 (by rwa [path_of_statement hfirst]) hrest
      rw [Line.items_append]
      exact ⟨List.forall_mem_append.2 ⟨hfits, hfitsRest⟩, hscopes'⟩
  | giveBack value span ss ih =>
      obtain ⟨first, mid, rest, hfirst, hrest, rfl⟩ := statements_cons_ok h
      have hfits := giveBack_fits hn hover.1 hfirst
      obtain ⟨-, rfl, -⟩ := giveBack_ok hfirst
      obtain ⟨hfitsRest, hscopes'⟩ := ih hn hover.2 hlabels hrest
      rw [Line.items_append]
      exact ⟨List.forall_mem_append.2 ⟨hfits, hfitsRest⟩, hscopes'⟩
  | eval value ss ih =>
      obtain ⟨first, mid, rest, hfirst, hrest, rfl⟩ := statements_cons_ok h
      have hfits := eval_fits hn hover.1 hfirst
      obtain ⟨rfl, -⟩ := eval_ok hfirst
      obtain ⟨hfitsRest, hscopes'⟩ := ih hn hover.2 hlabels hrest
      rw [Line.items_append]
      exact ⟨List.forall_mem_append.2 ⟨hfits, hfitsRest⟩, hscopes'⟩

/-- The labels of compiled statements are those of the functions they define. -/
theorem labelNames_perm {ss : List Stmt} {lines : List Line}
    (h : statements scopes ss = .ok (lines, scopes')) :
    (labelNames (Line.items lines)).Perm
      ((Stmt.definitionsOfAll scopes.path ss).flatMap Definition.labels) := by
  induction ss using Stmt.induction_all generalizing scopes scopes' lines with
  | nil =>
      cases h
      exact .nil
  | define name params body ss ihbody ih =>
      obtain ⟨first, mid, rest, hfirst, hrest, rfl⟩ := statements_cons_ok h
      have hpath := path_of_statement hfirst
      obtain ⟨bodyLines, last, -, -, hbody, hitems, rfl⟩ := define_ok hfirst
      have hinner := ihbody hbody
      have houter := ih hrest
      rw [path_bodyScopes] at hinner
      rw [hpath] at houter
      rw [Line.items_append, labelNames_append, hitems]
      simp only [bodyItems, labelNames_append, labelNames_commands, labelNames_command,
        labelNames_label, List.cons_append, List.nil_append, List.append_nil,
        Stmt.definitionsOfAll, Stmt.definitions, List.flatMap_cons, List.flatMap_append,
        Definition.labels, ← Scopes.qualify_eq]
      refine .cons _ ?_
      have hswap : (labelNames (Line.items bodyLines) ++
          labelNames [.label (endLabel (scopes.qualify name.val))]).Perm
          (labelNames [.label (endLabel (scopes.qualify name.val))] ++
            labelNames (Line.items bodyLines)) := List.perm_append_comm
      refine ((hswap.trans (hinner.append_left _)).append houter).trans ?_
      rfl
  | assign target value ss ih =>
      obtain ⟨first, mid, rest, hfirst, hrest, rfl⟩ := statements_cons_ok h
      obtain ⟨commands, -, hitems, rfl⟩ := assign_ok hfirst
      rw [Line.items_append, labelNames_append, hitems, labelNames_append, labelNames_commands]
      simpa [Stmt.definitionsOfAll, Stmt.definitions] using ih hrest
  | giveBack value span ss ih =>
      obtain ⟨first, mid, rest, hfirst, hrest, rfl⟩ := statements_cons_ok h
      obtain ⟨-, rfl, commands, -, hitems⟩ := giveBack_ok hfirst
      rw [Line.items_append, labelNames_append, hitems, labelNames_commands]
      exact ih hrest
  | eval value ss ih =>
      obtain ⟨first, mid, rest, hfirst, hrest, rfl⟩ := statements_cons_ok h
      obtain ⟨rfl, commands, -, hitems⟩ := eval_ok hfirst
      rw [Line.items_append, labelNames_append, hitems, labelNames_commands]
      exact ih hrest

/-- No qualified name is given twice. -/
theorem nodup_defined {ss : List Stmt} {lines : List Line} (hdefined : scopes.defined.Nodup)
    (h : statements scopes ss = .ok (lines, scopes')) : scopes'.defined.Nodup := by
  induction ss using Stmt.induction_all generalizing scopes scopes' lines with
  | nil =>
      cases h
      exact hdefined
  | define name params body ss ihbody ih =>
      obtain ⟨first, mid, rest, hfirst, hrest, rfl⟩ := statements_cons_ok h
      obtain ⟨bodyLines, last, -, hfresh, hbody, -, rfl⟩ := define_ok hfirst
      have hlast := ihbody (List.nodup_cons.2 ⟨hfresh, hdefined⟩) hbody
      refine ih ?_ hrest
      unfold Scopes.exit?
      cases last.bodies <;> exact hlast
  | assign target value ss ih =>
      obtain ⟨first, mid, rest, hfirst, hrest, rfl⟩ := statements_cons_ok h
      obtain ⟨-, -, -, rfl⟩ := assign_ok hfirst
      refine ih ?_ hrest
      exact hdefined
  | giveBack value span ss ih =>
      obtain ⟨first, mid, rest, hfirst, hrest, rfl⟩ := statements_cons_ok h
      obtain ⟨-, rfl, -⟩ := giveBack_ok hfirst
      exact ih hdefined hrest
  | eval value ss ih =>
      obtain ⟨first, mid, rest, hfirst, hrest, rfl⟩ := statements_cons_ok h
      obtain ⟨rfl, -⟩ := eval_ok hfirst
      exact ih hdefined hrest

end Compile

namespace Assembly

/-- What a unit whose items fit may still be refused for: its length, or two of its variables that
share a hash. -/
inductive HardlyRefused (hasher : String → UInt64) (items : List Item) : Refusal → Prop
  | overflow : HardlyRefused hasher items .addressOverflow
  | collision {first second} (hfirst : first ∈ variableNames items)
      (hsecond : second ∈ variableNames items) (hne : first ≠ second)
      (hhash : hasher first = hasher second) :
      HardlyRefused hasher items (.hashCollision first second)

/-- Items that fit their own labels, none of them given twice, assemble unless a hash or the size
is in the way. -/
theorem ofEntries_error {hasher : String → UInt64} {items : List (Located Item)}
    {e : Located Refusal} (hfits : ∀ i ∈ items, i.val.Fits (labelNames (items.map (·.val))))
    (hnames : (labelNames (items.map (·.val))).Nodup)
    (h : Image.ofEntries hasher (entriesOf items) = .error e) :
    HardlyRefused hasher (items.map (·.val)) e.val := by
  cases itemsRefused_of_ofEntries h with
  | overflow hitem => exact .overflow
  | @clash before item span after refusal hitems hclash =>
      have hitem := hfits _ (hitems ▸ List.mem_append_cons_self)
      cases hclash with
      | label hmem =>
          rw [hitems, List.map_append, labelNames_append, List.nodup_append] at hnames
          exact absurd rfl (hnames.2.2 _ hmem _ List.mem_cons_self)
      | @interrupt value hvalue =>
          have hzero : value = .zero := hitem
          have hbyte : Number.zero.toByte? ≠ none := by decide
          rw [hzero, ← Number.toByte?_eq_none_iff] at hvalue
          exact absurd hvalue hbyte
      | @name c name first hname hfirst hhash hne =>
          have hsplit : variableNames (items.map (·.val)) = variableNames (before.map (·.val)) ++
              (c.name?.toList ++ variableNames (after.map (·.val))) := by
            rw [hitems, List.map_append, List.map_cons, List.append_cons, variableNames_append,
              variableNames_append, variableNames_command, List.append_assoc]
          exact .collision (by simp [hsplit, hfirst]) (by simp [hsplit, hname]) hne hhash
  | target hitems hdangles =>
      have hitem := hfits _ (hitems ▸ List.mem_append_cons_self)
      cases hdangles with
      | jump hname => exact absurd hitem.2 hname
      | call hname hprint => exact absurd hitem.2 hname

end Assembly

namespace Source.Program

variable {program : Program} {lines : List Line}

/-- No two functions of a program that compiles go by one name. -/
theorem nodup_names {last : Scopes}
    (h : Compile.statements .empty program = .ok (lines, last)) :
    (program.definitions.map (·.id.qualified)).Nodup := by
  have hdefined := Compile.nodup_defined List.nodup_nil h
  obtain ⟨functions, rfl⟩ := Compile.growsBy_of_statements h
  rw [Scopes.defined_grow] at hdefined
  refine (List.reverse_perm _).nodup_iff.1 ?_
  simpa [Scopes.empty, Scopes.path, Program.definitions] using hdefined

/-- What is known of the items that a program is compiled to. -/
theorem items_of_compile
    (hover : program.Over IsIdentifier (fun value => value.isFinite = true))
    (h : program.compile = .ok lines) :
    (∀ i ∈ Line.items lines, i.Fits (labelNames (Line.items lines))) ∧
      (labelNames (Line.items lines)).Perm (program.definitions.flatMap Definition.labels) ∧
      (labelNames (Line.items lines)).Nodup := by
  obtain ⟨⟨lines', last⟩, hlines, h⟩ := bind_eq_ok_iff.1 h
  cases h
  have hperm : (labelNames (Line.items lines')).Perm
      (program.definitions.flatMap Definition.labels) := Compile.labelNames_perm hlines
  have hnodup := nodup_labels (nodup_names hlines) (isQualified_of_definitions (by simp) hover)
  refine ⟨?_, hperm, hperm.nodup_iff.2 hnodup⟩
  intro i hi
  have hfits := (Compile.statements_fits Scopes.Named.empty hover (List.Subset.refl _) hlines).1
  exact (hfits i hi).mono hperm.symm.subset

theorem assembly_ok {asm : String} (h : program.assembly = .ok asm) :
    ∃ lines, program.compile = .ok lines ∧ asm = Text.unlines (lines.map (·.text)) := by
  obtain ⟨lines, hlines, h⟩ := bind_eq_ok_iff.1 h
  cases h
  exact ⟨lines, hlines, rfl⟩

/-- The assembly of a program is read as the items that the program was compiled to. -/
theorem items_of_assembly {asm : String}
    (hover : program.Over IsIdentifier (fun value => value.isFinite = true))
    (h : program.assembly = .ok asm) :
    ∃ lines located, program.compile = .ok lines ∧
      Reads (Assembly.tokens asm.toList) located ∧
      located.map (·.val) = Line.items lines := by
  obtain ⟨lines, hlines, rfl⟩ := assembly_ok h
  have hfits := (items_of_compile hover hlines).1
  obtain ⟨located, hreads, hvals⟩ := reads_of_lines lines fun i hi => (hfits i hi).readable
  exact ⟨lines, located, hlines, hreads, hvals⟩

end Source.Program

namespace Toolchain

theorem over_of_parse {source : String} {program : Source.Program}
    (h : parse source = .ok program) :
    program.Over IsIdentifier (fun value => value.isFinite = true) := by
  obtain ⟨toks, htoks, h⟩ := bind_eq_ok_iff.1 h
  exact Source.over_of_parse (by decide) (over_of_tokensFrom (mapError_eq_ok_iff.1 htoks))
    (mapError_eq_ok_iff.1 h)

theorem compile_ok {source asm : String} (h : compile source = .ok asm) :
    ∃ program, parse source = .ok program ∧ program.assembly = .ok asm := by
  obtain ⟨program, hprogram, h⟩ := bind_eq_ok_iff.1 h
  exact ⟨program, hprogram, mapError_eq_ok_iff.1 h⟩

/-- Whatever the compiler writes is read back as items whose labels are exactly the two of each
function of the program. It assembles, with these labels, unless two different variables of it have
one hash or its code is too long to be addressed. -/
theorem compiled_text_assembles {source asm : String} (h : compile source = .ok asm) :
    ∃ program located, parse source = .ok program ∧
      Assembly.entries (Assembly.tokens asm.toList) = .ok (entriesOf located) ∧
      (labelNames (located.map (·.val))).Perm (program.definitions.flatMap Definition.labels) ∧
      (labelNames (located.map (·.val))).Nodup ∧
      ((∃ image, assemble asm = .ok image ∧
          image.labels.map Prod.fst = labelNames (located.map (·.val))) ∨
        (∃ first second span,
          assemble asm = .error (.assemble ⟨.hashCollision first second, span⟩) ∧
          first ∈ variableNames (located.map (·.val)) ∧
          second ∈ variableNames (located.map (·.val)) ∧
          first ≠ second ∧ nameHash first = nameHash second) ∨
        ∃ span, assemble asm = .error (.assemble ⟨.addressOverflow, span⟩) ∧
          UInt32.size ≤
            codeLength (definesPrint (entriesOf located)) (located.map (·.val))) := by
  obtain ⟨program, hprogram, hasm⟩ := compile_ok h
  have hover := over_of_parse hprogram
  obtain ⟨lines, located, hlines, hreads, hvals⟩ := program.items_of_assembly hover hasm
  obtain ⟨hfits, hperm, hnodup⟩ := program.items_of_compile hover hlines
  rw [← hvals] at hfits hperm hnodup
  refine ⟨program, located, hprogram, entries_of_reads hreads, hperm, hnodup, ?_⟩
  have hassemble := @assembleWith_of_reads nameHash _ _ hreads
  cases hresult : Image.ofEntries nameHash (entriesOf located) with
  | ok image =>
      refine .inl ⟨image, ?_, labels_of_ofEntries hresult⟩
      rw [assemble, Assembly.assemble, hassemble, hresult]
      rfl
  | error e =>
      obtain ⟨refusal, span⟩ := e
      rw [hresult] at hassemble
      have hrefused : assemble asm = .error (.assemble ⟨refusal, span⟩) := by
        rw [assemble, Assembly.assemble, hassemble]
        rfl
      cases ofEntries_error (fun i hi => hfits i.val (List.mem_map_of_mem hi)) hnodup hresult with
      | overflow => exact .inr (.inr ⟨span, hrefused, le_codeLength_of_overflow hreads hassemble⟩)
      | collision hfirst hsecond hne hhash =>
          exact .inr (.inl ⟨_, _, span, hrefused, hfirst, hsecond, hne, hhash⟩)

/-- A program whose functions go by mnemonics, one of them by the name of the one around it. -/
def mnemonicNames : String :=
  "def pop(ret) { def pop() { return ret; } return pop(); } print(pop(2));"

theorem mnemonic_names_assemble : ∃ asm, compile mnemonicNames = .ok asm ∧
    ∃ program located image, parse mnemonicNames = .ok program ∧
      Assembly.entries (Assembly.tokens asm.toList) = .ok (entriesOf located) ∧
      (labelNames (located.map (·.val))).Perm (program.definitions.flatMap Definition.labels) ∧
      assemble asm = .ok image ∧
      image.labels.map Prod.fst = labelNames (located.map (·.val)) ∧
      image.labels.map Prod.fst = ["pop", "pop.pop", "@pop.pop_end@", "@pop_end@"] := by
  obtain ⟨asm, h, hasm⟩ := exists_of_any (by decide +kernel :
    (compile mnemonicNames).toOption.any (fun asm => (assemble asm).toOption.any fun image =>
      image.labels.map Prod.fst = ["pop", "pop.pop", "@pop.pop_end@", "@pop_end@"]) = true)
  obtain ⟨image, himage, hlabels⟩ := exists_of_any hasm
  obtain ⟨program, located, hprogram, hentries, hperm, -, hassembled⟩ := compiled_text_assembles h
  obtain ⟨image', himage', hnames⟩ | ⟨_, _, _, hrefused, -⟩ | ⟨_, hrefused, -⟩ := hassembled
  · cases himage.symm.trans himage'
    exact ⟨asm, h, program, located, image, hprogram, hentries, hperm, himage, hnames,
      of_decide_eq_true hlabels⟩
  · cases himage.symm.trans hrefused
  · cases himage.symm.trans hrefused

end Toolchain

end StackCalc
