import StackCalc.Proofs.StaticErrors

/-!
# Programs renamed

A renaming takes identifiers to different identifiers, and `print` to itself. A program whose names
are all renamed is compiled to the same lines as the program, the names in them renamed part by
part, or it is refused for the same reason at the same place.
-/

namespace StackCalc

open Assembly Source

namespace Source

/-- A word that may name a variable or a function. -/
abbrev Identifier := { name : String // IsIdentifier name }

/-- Could the characters be those of an identifier? -/
def isIdentifierChars : List Char → Bool
  | [] => false
  | c :: tail => Lexer.startsName c && tail.all Lexer.continuesName

theorem isIdentifier_iff {name : String} :
    IsIdentifier name ↔ isIdentifierChars name.toList = true := by
  unfold IsIdentifier
  cases name.toList with
  | nil => simp [isIdentifierChars]
  | cons c tail => simp [isIdentifierChars]

instance : DecidablePred IsIdentifier := fun _ => decidable_of_iff _ isIdentifier_iff.symm

theorem isIdentifier_printName : IsIdentifier printName := by decide

/-- What is between the points of a name. -/
def parts (name : String) : List String := (name.toList.splitOn '.').map String.ofList

theorem intercalate_parts (name : String) : String.intercalate "." (parts name) = name := by
  apply String.toList_injective
  rw [String.toList_intercalate, parts, List.map_map]
  have hid : String.toList ∘ String.ofList = id := funext fun _ => String.toList_ofList
  rw [hid, List.map_id]
  exact List.intercalate_splitOn '.'

theorem parts_intercalate {names : List String} (h : ∀ n ∈ names, '.' ∉ n.toList)
    (hne : names ≠ []) : parts (String.intercalate "." names) = names := by
  have hsplit : (['.'].intercalate (names.map String.toList)).splitOn '.' =
      names.map String.toList :=
    List.splitOn_intercalate '.' (by simpa using h) (by simpa using hne)
  rw [parts, String.toList_intercalate]
  rw [show ".".toList = ['.'] from rfl, hsplit, List.map_map]
  have hid : String.ofList ∘ String.toList = id := funext fun _ => String.ofList_toList
  rw [hid, List.map_id]

theorem not_mem_of_mem_splitOn {c : Char} {text : List Char} :
    ∀ part ∈ text.splitOn c, c ∉ part := by
  induction text with
  | nil => simp
  | cons x text ih =>
      rw [List.splitOn_cons_eq_if_modifyHead]
      split
      · exact List.forall_mem_cons.2 ⟨List.not_mem_nil, ih⟩
      · next hx =>
          cases hsplit : text.splitOn c with
          | nil => exact absurd hsplit (List.splitOn_ne_nil c text)
          | cons first later =>
              rw [hsplit] at ih
              obtain ⟨hfirst, hlater⟩ := List.forall_mem_cons.1 ih
              refine List.forall_mem_cons.2 ⟨?_, hlater⟩
              rw [List.mem_cons, not_or]
              exact ⟨fun heq => hx (beq_iff_eq.2 heq.symm), hfirst⟩

theorem no_point_of_mem_parts {name part : String} (h : part ∈ parts name) :
    '.' ∉ part.toList := by
  obtain ⟨chars, hchars, rfl⟩ := List.mem_map.1 h
  rw [String.toList_ofList]
  exact not_mem_of_mem_splitOn chars hchars

theorem parts_ne_nil (name : String) : parts name ≠ [] := by
  simp [parts, List.splitOn_ne_nil]

end Source

/-- A map from identifiers to identifiers that keeps different names apart, and keeps `print`. -/
structure Renaming where
  toFun : Identifier → Identifier
  injective : Function.Injective toFun
  print : (toFun ⟨printName, isIdentifier_printName⟩).val = printName

namespace Renaming

variable (ρ : Renaming)

/-- What is no identifier stays as it is. -/
def apply (name : String) : String :=
  if h : IsIdentifier name then (ρ.toFun ⟨name, h⟩).val else name

instance : CoeFun Renaming fun _ => String → String := ⟨apply⟩

variable {name : String}

theorem apply_of_isIdentifier (h : IsIdentifier name) : ρ name = (ρ.toFun ⟨name, h⟩).val :=
  dif_pos h

theorem isIdentifier_apply (h : IsIdentifier name) : IsIdentifier (ρ name) := by
  rw [ρ.apply_of_isIdentifier h]
  exact (ρ.toFun ⟨name, h⟩).property

theorem apply_print : ρ printName = printName := by
  rw [ρ.apply_of_isIdentifier isIdentifier_printName, ρ.print]

theorem apply_injective : Function.Injective ρ := by
  intro a b h
  by_cases ha : IsIdentifier a <;> by_cases hb : IsIdentifier b
  · rw [ρ.apply_of_isIdentifier ha, ρ.apply_of_isIdentifier hb] at h
    exact congrArg Subtype.val (ρ.injective (Subtype.ext h))
  · rw [apply, apply, dif_neg hb] at h
    exact absurd (h ▸ ρ.isIdentifier_apply ha) hb
  · rw [apply, dif_neg ha] at h
    exact absurd (h ▸ ρ.isIdentifier_apply hb) ha
  · rwa [apply, apply, dif_neg ha, dif_neg hb] at h

theorem apply_eq_print : ρ name = printName ↔ name = printName := by
  rw [← ρ.apply_injective.eq_iff (a := name), ρ.apply_print]

theorem no_point_apply (h : '.' ∉ name.toList) : '.' ∉ (ρ name).toList := by
  by_cases hname : IsIdentifier name
  · exact (ρ.isIdentifier_apply hname).no_point
  · rwa [apply, dif_neg hname]

/-- Renames a name part by part. -/
def qualified (name : String) : String := String.intercalate "." ((parts name).map ρ)

theorem parts_qualified (name : String) : parts (ρ.qualified name) = (parts name).map ρ := by
  refine parts_intercalate ?_ (by simpa using parts_ne_nil name)
  intro n hn
  obtain ⟨part, hpart, rfl⟩ := List.mem_map.1 hn
  exact ρ.no_point_apply (no_point_of_mem_parts hpart)

theorem qualified_injective : Function.Injective ρ.qualified := by
  intro a b h
  have hparts := congrArg parts h
  rw [parts_qualified, parts_qualified] at hparts
  rw [← intercalate_parts a, List.map_injective_iff.2 ρ.apply_injective hparts, intercalate_parts]

theorem qualified_qualifiedBy {path : List String} {name : String}
    (hpath : ∀ outer ∈ path, IsIdentifier outer) (hname : IsIdentifier name) :
    ρ.qualified (qualifiedBy path name).qualified =
      (qualifiedBy (path.map ρ) (ρ name)).qualified := by
  have hparts : parts (qualifiedBy path name).qualified = path ++ [name] := by
    refine parts_intercalate ?_ (by simp)
    intro n hn
    rcases List.mem_append.1 hn with hn | hn
    · exact (hpath n hn).no_point
    · rw [List.mem_singleton.1 hn]
      exact hname.no_point
  rw [qualified, hparts, List.map_append]
  rfl

/-- Renames what marks a place in code: the name of a function, or its end label. -/
def label (name : String) : String :=
  match name.toList with
  | '@' :: rest =>
    "@" ++ ρ.qualified (String.ofList (rest.take (rest.length - "_end@".length))) ++ "_end@"
  | _ => ρ.qualified name

theorem label_of_head_ne (h : name.toList.head? ≠ some '@') : ρ.label name = ρ.qualified name := by
  unfold label
  split
  · next hname => exact absurd (by rw [hname]; rfl) h
  · rfl

def scopedName (x : ScopedName) : ScopedName := ⟨ρ x.name, ρ.qualified x.qualified⟩

theorem label_endLabel (f : ScopedName) :
    ρ.label (Compile.endLabel f) = Compile.endLabel (ρ.scopedName f) := by
  have hlength : (f.qualified.toList ++ "_end@".toList).length - "_end@".length =
      f.qualified.toList.length := by
    rw [List.length_append]
    exact Nat.add_sub_cancel _ _
  simp only [label, toList_endLabel, hlength, List.take_left, String.ofList_toList]
  rfl

def entry (f : FunctionEntry) : FunctionEntry := ⟨ρ.scopedName f.id, f.arity⟩

def scope (s : Scope) : Scope := ⟨s.vars.map ρ.scopedName, s.functions.map ρ.entry⟩

def body (b : Body) : Body := ⟨ρ.scopedName b.function, ρ.scope b.scope⟩

def scopes (s : Scopes) : Scopes :=
  ⟨ρ.scope s.base, s.bodies.map ρ.body, s.defined.map ρ.qualified⟩

def ident (x : Ident) : Ident := { x with val := ρ x.val }

mutual

def expr : Expr → Expr
  | .number value => .number value
  | .variable name => .variable (ρ.ident name)
  | .binary op lhs rhs => .binary op (expr lhs) (expr rhs)
  | .call callee args => .call (ρ.ident callee) (exprs args)

def exprs : List Expr → List Expr
  | [] => []
  | e :: es => expr e :: exprs es

end

mutual

def stmt : Stmt → Stmt
  | .define name params body => .define (ρ.ident name) (params.map ρ.ident) (stmts body)
  | .assign target value => .assign (ρ.ident target) (ρ.expr value)
  | .giveBack value span => .giveBack (ρ.expr value) span
  | .eval value => .eval (ρ.expr value)

def stmts : List Stmt → List Stmt
  | [] => []
  | s :: ss => stmt s :: stmts ss

end

def program (p : Program) : Program := ρ.stmts p

def error : CompileError → CompileError
  | .unboundVariable name => .unboundVariable (ρ name)
  | .unknownFunction name => .unknownFunction (ρ name)
  | .arityMismatch name expected found => .arityMismatch (ρ name) expected found
  | .printHasNoValue => .printHasNoValue
  | .returnOutsideFunction => .returnOutsideFunction
  | .duplicateFunction name => .duplicateFunction (ρ name)
  | .duplicateParameter name => .duplicateParameter (ρ name)

/-- Renames what a check lets pass, or the names in its error. -/
def checked {α β : Type} (f : α → β) : Checked α → Checked β
  | .ok x => .ok (f x)
  | .error e => .error { e with val := ρ.error e.val }

def command : Command → Command
  | .jump target => .jump (ρ.label target)
  | .call target => .call (ρ.label target)
  | .set name => .set (ρ.qualified name)
  | .get name => .get (ρ.qualified name)
  | .unset name => .unset (ρ.qualified name)
  | .ret => .ret
  | .arith op => .arith op
  | .push value => .push value
  | .pop => .pop
  | .interrupt value => .interrupt value

def item : Item → Item
  | .label name => .label (ρ.label name)
  | .command c => .command (ρ.command c)

def line : Line → Line
  | .blank => .blank
  | .item depth i => .item depth (ρ.item i)

section Scopes

variable {s : Scopes} {name : String}

theorem path_scopes : (ρ.scopes s).path = s.path.map ρ := by
  simp [scopes, Scopes.path, body, scopedName]

theorem depth_scopes : (ρ.scopes s).depth = s.depth := by
  simp [scopes, Scopes.depth]

theorem qualify_scopes (hpath : ∀ outer ∈ s.path, IsIdentifier outer) (hname : IsIdentifier name) :
    (ρ.scopes s).qualify (ρ name) = ρ.scopedName (s.qualify name) := by
  have hqualified := ρ.qualified_qualifiedBy hpath hname
  rw [Scopes.qualify_eq, path_scopes, scopedName, Scopes.qualify_eq, hqualified]
  rfl

theorem vars_scopes : (ρ.scopes s).visible.flatMap (·.vars) =
    (s.visible.flatMap (·.vars)).map ρ.scopedName := by
  simp [scopes, Scopes.visible, body, scope, List.map_flatMap, List.flatMap_map]

theorem functions_scopes : (ρ.scopes s).visible.flatMap (·.functions) =
    (s.visible.flatMap (·.functions)).map ρ.entry := by
  simp [scopes, Scopes.visible, body, scope, List.map_flatMap, List.flatMap_map]

theorem findVariable?_scopes : (ρ.scopes s).findVariable? (ρ name) =
    (s.findVariable? name).map ρ.scopedName := by
  rw [Scopes.findVariable?, vars_scopes, List.find?_map, Scopes.findVariable?]
  have hsame : (fun x : ScopedName => decide (x.name = ρ name)) ∘ ρ.scopedName =
      fun x => decide (x.name = name) := by
    funext x
    exact decide_eq_decide.2 ρ.apply_injective.eq_iff
  rw [hsame]

theorem findFunction?_scopes : (ρ.scopes s).findFunction? (ρ name) =
    (s.findFunction? name).map ρ.entry := by
  rw [Scopes.findFunction?, functions_scopes, List.find?_map, Scopes.findFunction?]
  have hsame : (fun f : FunctionEntry => decide (f.id.name = ρ name)) ∘ ρ.entry =
      fun f => decide (f.id.name = name) := by
    funext f
    exact decide_eq_decide.2 ρ.apply_injective.eq_iff
  rw [hsame]

theorem scopes_grow (vars : List ScopedName) (functions : List FunctionEntry)
    (names : List String) : ρ.scopes (s.grow vars functions names) =
      (ρ.scopes s).grow (vars.map ρ.scopedName) (functions.map ρ.entry)
        (names.map ρ.qualified) := by
  obtain ⟨base, bodies, defined⟩ := s
  cases bodies <;> simp [scopes, Scopes.grow, Scopes.modifyInnermost, scope, body]

theorem scopes_inside (f : ScopedName) (arity : Nat) :
    ρ.scopes (s.inside f arity) = (ρ.scopes s).inside (ρ.scopedName f) arity := by
  obtain ⟨base, bodies, defined⟩ := s
  cases bodies <;> simp [scopes, Scopes.inside, Scopes.opened, Scopes.grow, Scopes.modifyInnermost,
    Scope.empty, scope, body, entry, scopedName]

theorem frameBindings_scopes : (ρ.scopes s).frameBindings = s.frameBindings.map ρ.scopedName := by
  obtain ⟨base, bodies, defined⟩ := s
  cases bodies <;> simp [scopes, Scopes.frameBindings, Scopes.innermost, scope, body]

theorem exit?_scopes : (ρ.scopes s).exit?.map (·.2) = (s.exit?.map (·.2)).map ρ.scopes := by
  obtain ⟨base, bodies, defined⟩ := s
  cases bodies <;> simp [scopes, Scopes.exit?]

end Scopes

end Renaming

end StackCalc
