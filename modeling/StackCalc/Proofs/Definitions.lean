import StackCalc.Proofs.AssemblyText
import StackCalc.Proofs.Vocabulary
import StackCalc.Program.Compile

/-!
# The definitions of a program

All functions that a program defines, those inside others included, with the names that they go
by in code. A qualified name is a word of assembly whenever its parts are identifiers, and no end
label is ever taken for a qualified name or for another end label.
-/

namespace StackCalc

namespace Source

/-- A function with the name that it goes by in code. -/
structure Definition where
  id : ScopedName
  params : List Ident

/-- A name behind the names of the functions around it. -/
def qualifiedBy (path : List String) (name : String) : ScopedName :=
  ⟨name, String.intercalate "." (path ++ [name])⟩

mutual

def Stmt.definitions (path : List String) : Stmt → List Definition
  | .define name params body =>
    ⟨qualifiedBy path name.val, params⟩ :: Stmt.definitionsOfAll (path ++ [name.val]) body
  | .assign _ _ | .giveBack _ _ | .eval _ => []

def Stmt.definitionsOfAll (path : List String) : List Stmt → List Definition
  | [] => []
  | s :: ss => s.definitions path ++ Stmt.definitionsOfAll path ss

end

/-- Every function of a program, in the order of the text. -/
def Program.definitions (program : Program) : List Definition := Stmt.definitionsOfAll [] program

/-- The label of the code of a function and the label behind it. -/
def Definition.labels (d : Definition) : List String := [d.id.qualified, Compile.endLabel d.id]

/-- Induction over statements in a row, the bodies of functions included. -/
theorem Stmt.induction_all {P : List Stmt → Prop} (nil : P [])
    (define : ∀ name params body ss, P body → P ss → P (.define name params body :: ss))
    (assign : ∀ target value ss, P ss → P (.assign target value :: ss))
    (giveBack : ∀ value span ss, P ss → P (.giveBack value span :: ss))
    (eval : ∀ value ss, P ss → P (.eval value :: ss)) : ∀ ss, P ss := by
  apply Stmt.rec_1 (motive_1 := fun s => ∀ ss, P ss → P (s :: ss)) (motive_2 := P)
  · exact fun name params body ih ss hss => define name params body ss ih hss
  · exact fun target value ss hss => assign target value ss hss
  · exact fun value span ss hss => giveBack value span ss hss
  · exact fun value ss hss => eval value ss hss
  · exact nil
  · exact fun s ss ihs ihss => ihs ss ihss

/-- Induction over an expression, the arguments of calls included. -/
theorem Expr.induction_args {P : Expr → Prop} (number : ∀ value, P (.number value))
    (var : ∀ name, P (.variable name))
    (binary : ∀ op lhs rhs, P lhs → P rhs → P (.binary op lhs rhs))
    (call : ∀ callee args, (∀ e ∈ args, P e) → P (.call callee args)) : ∀ e, P e := by
  apply Expr.rec (motive_1 := P) (motive_2 := fun es => ∀ e ∈ es, P e)
  · exact number
  · exact var
  · exact fun op lhs rhs hl hr => binary op lhs rhs hl hr
  · exact fun callee args ih => call callee args ih
  · simp
  · intro e es he hes x hx
    rcases List.mem_cons.1 hx with rfl | hx
    · exact he
    · exact hes x hx

variable {path : List String} {name outer : String}

theorem qualifiedBy_snoc (path : List String) (outer name : String) :
    (qualifiedBy (path ++ [outer]) name).qualified =
      (qualifiedBy path outer).qualified ++ "." ++ name := by
  unfold qualifiedBy
  rw [String.intercalate_append_of_ne_nil (by simp) (by simp), String.intercalate_singleton]

/-- A word of assembly that begins as an identifier does. -/
def IsQualified (name : String) : Prop :=
  Assembly.IsName name ∧ name.toList.head? ≠ some '@'

theorem isQualified_of_isIdentifier (h : IsIdentifier name) : IsQualified name := by
  obtain ⟨c, tail, hchars, hstart, htail⟩ := h
  refine ⟨⟨c, tail, hchars, ?_, ?_⟩, ?_⟩
  · unfold Lexer.startsName at hstart
    unfold Assembly.Lexer.startsName
    rw [hstart, Bool.true_or]
  · intro x hx
    have hx := htail x hx
    unfold Lexer.continuesName at hx
    unfold Assembly.Lexer.continuesName
    rw [hx, Bool.true_or, Bool.true_or]
  · rw [hchars]
    intro h
    cases h
    cases hstart

theorem continuesName_of_startsName {c : Char} (h : Assembly.Lexer.startsName c = true) :
    Assembly.Lexer.continuesName c = true := by
  unfold Assembly.Lexer.startsName at h
  unfold Assembly.Lexer.continuesName Char.isAlphanum
  simp only [Bool.or_eq_true, decide_eq_true_eq] at h ⊢
  rcases h with (h | h) | h
  · exact .inl (.inl (.inl (.inl h)))
  · exact .inl (.inl (.inr h))
  · exact .inl (.inr h)

theorem IsQualified.append {a b : String} (ha : IsQualified a) (hb : IsQualified b) :
    IsQualified (a ++ "." ++ b) := by
  obtain ⟨⟨c, tail, hchars, hstart, htail⟩, hfirst⟩ := ha
  obtain ⟨⟨c', tail', hchars', hstart', htail'⟩, -⟩ := hb
  have happend : (a ++ "." ++ b).toList = c :: (tail ++ '.' :: c' :: tail') := by
    simp [String.toList_append, hchars, hchars']
  refine ⟨⟨c, tail ++ '.' :: c' :: tail', happend, hstart, ?_⟩, ?_⟩
  · intro x hx
    rw [List.mem_append, List.mem_cons, List.mem_cons] at hx
    rcases hx with hx | rfl | rfl | hx
    · exact htail x hx
    · rfl
    · exact continuesName_of_startsName hstart'
    · exact htail' x hx
  · rw [happend]
    rw [hchars] at hfirst
    exact hfirst

theorem isQualified_qualifiedBy (hpath : ∀ outer ∈ path, IsIdentifier outer)
    (hname : IsIdentifier name) : IsQualified (qualifiedBy path name).qualified := by
  induction path with
  | nil =>
      simp only [qualifiedBy, List.nil_append, String.intercalate_singleton]
      exact isQualified_of_isIdentifier hname
  | cons outer path ih =>
      have houter := isQualified_of_isIdentifier (hpath outer (by simp))
      have hrest := ih fun x hx => hpath x (by simp [hx])
      simp only [qualifiedBy, List.cons_append] at hrest ⊢
      rw [String.intercalate_cons_of_ne_nil (by simp)]
      exact houter.append hrest

theorem toList_endLabel (f : ScopedName) :
    (Compile.endLabel f).toList = '@' :: (f.qualified.toList ++ "_end@".toList) := by
  simp [Compile.endLabel, String.toList_append]

theorem isName_endLabel {f : ScopedName} (h : Assembly.IsName f.qualified) :
    Assembly.IsName (Compile.endLabel f) := by
  obtain ⟨c, tail, hchars, hstart, htail⟩ := h
  refine ⟨'@', f.qualified.toList ++ "_end@".toList, toList_endLabel f, rfl, ?_⟩
  intro x hx
  rw [hchars, List.cons_append, List.mem_cons, List.mem_append] at hx
  rcases hx with rfl | hx | hx
  · exact continuesName_of_startsName hstart
  · exact htail x hx
  · have hend : ∀ x ∈ "_end@".toList, Assembly.Lexer.continuesName x = true :=
      List.all_eq_true.1 rfl
    exact hend x hx

theorem qualified_eq_of_endLabel {f g : ScopedName}
    (h : Compile.endLabel f = Compile.endLabel g) : f.qualified = g.qualified := by
  have hchars := congrArg String.toList h
  rw [toList_endLabel, toList_endLabel, List.cons.injEq] at hchars
  exact String.toList_injective (List.append_cancel_right hchars.2)

theorem endLabel_ne_of_isQualified {f : ScopedName} {name : String} (h : IsQualified name) :
    Compile.endLabel f ≠ name := by
  rintro rfl
  apply h.2
  rw [toList_endLabel]
  rfl

end Source

end StackCalc
