import Mathlib.Data.List.TakeWhile
import StackCalc.Proofs.Parsing

/-!
# The words of a program

Which names and numbers a program is written with. What is parsed has no other names and numbers
than its tokens, and the tokens of a text have identifiers for names and finite numbers, so that
this holds of every program that comes from a text.
-/

namespace StackCalc.Source

mutual

/-- All names have one property and all numbers another. -/
def Expr.Over (names : String → Prop) (numbers : Number → Prop) : Expr → Prop
  | .number value => numbers value
  | .variable name => names name.val
  | .binary _ lhs rhs => lhs.Over names numbers ∧ rhs.Over names numbers
  | .call callee args => names callee.val ∧ Expr.AllOver names numbers args

def Expr.AllOver (names : String → Prop) (numbers : Number → Prop) : List Expr → Prop
  | [] => True
  | e :: es => e.Over names numbers ∧ Expr.AllOver names numbers es

end

mutual

def Stmt.Over (names : String → Prop) (numbers : Number → Prop) : Stmt → Prop
  | .define name params body =>
    names name.val ∧ (∀ param ∈ params, names param.val) ∧ Stmt.AllOver names numbers body
  | .assign target value => names target.val ∧ value.Over names numbers
  | .giveBack value _ => value.Over names numbers
  | .eval value => value.Over names numbers

def Stmt.AllOver (names : String → Prop) (numbers : Number → Prop) : List Stmt → Prop
  | [] => True
  | s :: ss => s.Over names numbers ∧ Stmt.AllOver names numbers ss

end

def Program.Over (names : String → Prop) (numbers : Number → Prop) (program : Program) : Prop :=
  Stmt.AllOver names numbers program

/-- A word that the lexer reads whole, be it a keyword or not. -/
def IsIdentifier (name : String) : Prop :=
  ∃ c tail, name.toList = c :: tail ∧ Lexer.startsName c = true ∧
    ∀ x ∈ tail, Lexer.continuesName x = true

theorem IsIdentifier.all {name : String} (h : IsIdentifier name) :
    ∀ x ∈ name.toList, Lexer.continuesName x = true := by
  obtain ⟨c, tail, hchars, hstart, htail⟩ := h
  rw [hchars]
  refine List.forall_mem_cons.2 ⟨?_, htail⟩
  rw [Lexer.startsName] at hstart
  rw [Lexer.continuesName, Char.isAlphanum, Bool.or_right_comm, hstart, Bool.true_or]

variable {names : String → Prop} {numbers : Number → Prop}

theorem Expr.allOver_iff {es : List Expr} :
    Expr.AllOver names numbers es ↔ ∀ e ∈ es, e.Over names numbers := by
  induction es with
  | nil => simp [Expr.AllOver]
  | cons e es ih => simp [Expr.AllOver, ih]

def Token.Over (names : String → Prop) (numbers : Number → Prop) : Token → Prop
  | .identifier name => names name
  | .number value => numbers value
  | .keyword _ | .symbol _ => True

/-- What a derivation stands for is over the names and numbers. -/
def Nonterminal.Over (names : String → Prop) (numbers : Number → Prop) :
    (N : Nonterminal) → N.Tree → Prop
  | .program, ss => Stmt.AllOver names numbers ss
  | .statement, s | .definition, s => s.Over names numbers
  | .parameters, params | .names, params => ∀ param ∈ params, names param.val
  | .expression _, e | .call, e => e.Over names numbers
  | .arguments, es | .sums, es => Expr.AllOver names numbers es

/-- A negation stands for a subtraction from zero, which is no token. -/
theorem Derivation.over_tree {N : Nonterminal} (hzero : numbers .zero) (d : Derivation N)
    (h : ∀ t ∈ d.tokens, t.val.Over names numbers) : N.Over names numbers d.tree := by
  induction d with
  | done | noSums => exact trivial
  | noNames => exact List.forall_mem_nil _
  | defining d ih | someNames d ih | single d ih | calling d ih | someSums d ih => exact ih h
  | next first later ih ih' =>
      obtain ⟨hfirst, hlater⟩ := List.forall_mem_append.1 h
      exact ⟨ih hfirst, ih' hlater⟩
  | returning keyword value semicolon ih =>
      exact ih (List.forall_mem_append.1 (List.forall_mem_cons.1 h).2).1
  | assigning target equals value semicolon ih =>
      obtain ⟨htarget, hbehind⟩ := List.forall_mem_cons.1 h
      exact ⟨htarget, ih (List.forall_mem_append.1 (List.forall_mem_cons.1 hbehind).2).1⟩
  | evaluating value semicolon ih => exact ih (List.forall_mem_append.1 h).1
  | definition keyword name leftParen params rightParen leftBrace body rightBrace ih ih' =>
      simp only [tokens, List.forall_mem_cons, List.forall_mem_append] at h
      obtain ⟨-, hname, -, hparams, -, -, hbody, -⟩ := h
      exact ⟨hname, ih hparams, ih' hbody⟩
  | lastName name => exact List.forall_mem_singleton.2 (h name.token List.mem_cons_self)
  | moreNames name comma later ih =>
      obtain ⟨hname, hbehind⟩ := List.forall_mem_cons.1 h
      exact List.forall_mem_cons.2 ⟨hname, ih (List.forall_mem_cons.1 hbehind).2⟩
  | operation lhs op hop place rhs ih ih' | moreSums lhs comma rhs ih ih' =>
      obtain ⟨hlhs, hbehind⟩ := List.forall_mem_append.1 h
      exact ⟨ih hlhs, ih' (List.forall_mem_cons.1 hbehind).2⟩
  | negation minus operand ih => exact ⟨hzero, ih (List.forall_mem_cons.1 h).2⟩
  | number value span => exact h ⟨.number value, span⟩ List.mem_cons_self
  | named name => exact h name.token List.mem_cons_self
  | grouping leftParen inner rightParen ih =>
      exact ih (List.forall_mem_append.1 (List.forall_mem_cons.1 h).2).1
  | call callee leftParen args rightParen ih =>
      obtain ⟨hcallee, hbehind⟩ := List.forall_mem_cons.1 h
      exact ⟨hcallee, ih (List.forall_mem_append.1 (List.forall_mem_cons.1 hbehind).2).1⟩
  | lastSum x ih => exact ⟨ih h, trivial⟩

/-- A program is written with the names and numbers of its tokens, and zero. -/
theorem over_of_parse {tokens : List (Located Token)} {program : Program}
    (hzero : numbers .zero) (hover : ∀ t ∈ tokens, t.val.Over names numbers)
    (h : parse tokens = .ok program) : program.Over names numbers := by
  obtain ⟨d, -, rfl, rfl⟩ := reads_of_parse h
  exact d.over_tree hzero hover

namespace Lexer

theorem over_of_scan {c : Char} {rest tail : List Char} {token : Token}
    (h : scan c rest = (.ok token, tail)) :
    token.Over IsIdentifier (fun value => value.isFinite = true) := by
  unfold scan at h
  split at h
  · next hstart =>
      cases h
      unfold word
      split
      · exact trivial
      · split
        · exact trivial
        · refine ⟨c, rest.takeWhile continuesName, String.toList_ofList, hstart, ?_⟩
          exact fun x hx => List.mem_takeWhile_imp hx
  · split at h
    · unfold literal at h
      dsimp only at h
      split at h
      · next hfinite =>
          cases h
          exact hfinite
      · cases h
    · split at h <;> cases h
      exact trivial

end Lexer

/-- Names in a text are identifiers, and its numbers are finite. -/
theorem over_of_tokensFrom {start : Nat} {text : List Char} {toks : List (Located Token)}
    (h : tokensFrom start text = .ok toks) :
    ∀ t ∈ toks, t.val.Over IsIdentifier (fun value => value.isFinite = true) := by
  fun_induction tokensFrom start text generalizing toks with
  | case1 =>
      cases h
      simp
  | case2 _ _ _ _ ih => exact ih h
  | case3 => cases h
  | case4 start c rest _ tail stop token hscan =>
      rename_i ih
      obtain ⟨later, hlater, h⟩ := bind_eq_ok_iff.1 h
      cases h
      intro t ht
      rcases List.mem_cons.1 ht with rfl | ht
      · exact Lexer.over_of_scan hscan
      · exact ih hlater t ht

end StackCalc.Source
