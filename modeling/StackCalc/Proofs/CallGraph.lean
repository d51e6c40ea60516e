import Mathlib.Data.List.Basic
import StackCalc.Proofs.Frames

/-!
# Calls in the text of a program

Nothing in a program chooses between statements, so that the functions that a body calls can be
read off its text: they are those in its expressions up to the first `return`. Whether the calls
of a function come to an end inside a number of levels is a property of the text too, and a number
of levels as large as the number of definitions is as good as any.
-/

namespace StackCalc

open Source

namespace Frame

variable (frame : Frame)

/-- The function that a definition makes. -/
def closure (name : Ident) (params : List Ident) (body : List Stmt) : Closure :=
  ⟨frame.qualify name.val, params, body, frame.vars, frame.functions⟩

/-- The frame behind a statement. -/
def past : Stmt → Frame
  | .define name params body => frame.define name params body
  | .assign target _ => { frame with own := frame.qualify target.val :: frame.own }
  | .giveBack _ _ | .eval _ => frame

end Frame

/-- The frame that the body of a function begins in. -/
def Closure.inside (f : Closure) : Frame := { Frame.ofClosure f with own := f.paramNames.reverse }

namespace Source

mutual

/-- The functions that an expression calls. -/
def Expr.calls (frame : Frame) : Expr → List Closure
  | .number _ | .variable _ => []
  | .binary _ lhs rhs => rhs.calls frame ++ lhs.calls frame
  | .call name args => Expr.callsOfAll frame args ++ (frame.findFunction? name.val).toList

def Expr.callsOfAll (frame : Frame) : List Expr → List Closure
  | [] => []
  | e :: es => e.calls frame ++ Expr.callsOfAll frame es

end

def Stmt.isReturn : Stmt → Bool
  | .giveBack _ _ => true
  | .define _ _ _ | .assign _ _ | .eval _ => false

def Stmt.calls (frame : Frame) : Stmt → List Closure
  | .define _ _ _ => []
  | .assign _ value | .giveBack value _ | .eval value => value.calls frame

/-- The functions that statements call before one of them returns. -/
def Stmt.callsOfAll (frame : Frame) : List Stmt → List Closure
  | [] => []
  | s :: ss => s.calls frame ++ if s.isReturn then [] else Stmt.callsOfAll (frame.past s) ss

mutual

/-- The functions that a statement defines, those inside it included. -/
def Stmt.closures (frame : Frame) : Stmt → List Closure
  | .define name params body =>
    let f := frame.closure name params body
    f :: Stmt.closuresOfAll f.inside body
  | .assign _ _ | .giveBack _ _ | .eval _ => []

def Stmt.closuresOfAll (frame : Frame) : List Stmt → List Closure
  | [] => []
  | s :: ss => s.closures frame ++ Stmt.closuresOfAll (frame.past s) ss

end

end Source

/-- The functions that a function calls. -/
def Closure.calls (f : Closure) : List Closure := Stmt.callsOfAll f.inside f.body

/-- Do the calls of a function come to an end inside a number of levels, its own included? -/
def Closure.nests : (depth : Nat) → Closure → Bool
  | 0, _ => false
  | depth + 1, f => f.calls.all (Closure.nests depth)

def Source.Program.calls (program : Program) : List Closure :=
  Stmt.callsOfAll .topLevel program

def Source.Program.closures (program : Program) : List Closure :=
  Stmt.closuresOfAll .topLevel program

/-- Do all calls that a program makes come to an end inside a number of levels? -/
def Source.Program.nests (depth : Nat) (program : Program) : Bool :=
  program.calls.all (Closure.nests depth)

namespace Closure

variable {f : Closure} {all : List Closure} {depth depth' : Nat}

theorem nests_succ : f.nests (depth + 1) = true ↔ ∀ g ∈ f.calls, g.nests depth = true := by
  rw [nests, List.all_eq_true]

theorem nests_mono (h : f.nests depth = true) (hle : depth ≤ depth') :
    f.nests depth' = true := by
  induction depth generalizing f depth' with
  | zero => cases h
  | succ depth ih =>
      obtain ⟨depth', rfl⟩ := Nat.exists_eq_succ_of_ne_zero
        (Nat.ne_of_gt (Nat.lt_of_lt_of_le (Nat.succ_pos depth) hle))
      rw [nests_succ] at h ⊢
      exact fun g hg => ih (h g hg) (Nat.le_of_succ_le_succ hle)

theorem filter_nests_sublist (all : List Closure) (depth : Nat) :
    (all.filter (nests depth)).Sublist (all.filter (nests (depth + 1))) :=
  List.monotone_filter_right all fun _ h => nests_mono h (Nat.le_succ depth)

/-- If one more level is no help to any of the functions, more levels are none either. -/
theorem nests_of_stable (hclosed : ∀ f ∈ all, ∀ g ∈ f.calls, g ∈ all)
    (hstable : all.filter (nests (depth + 1)) = all.filter (nests depth)) (hf : f ∈ all)
    (h : f.nests depth' = true) : f.nests depth = true := by
  induction depth' generalizing f with
  | zero => cases h
  | succ depth' ih =>
      rw [nests_succ] at h
      have hsucc : f.nests (depth + 1) = true :=
        nests_succ.2 fun g hg => ih (hclosed f hf g hg) (h g hg)
      have hmem := List.mem_filter.2 ⟨hf, hsucc⟩
      rw [hstable] at hmem
      exact (List.mem_filter.1 hmem).2

/-- As long as every level is a help to one of the functions, at least one more of them has come to
an end at each. -/
theorem stable_or_le (all : List Closure) (depth : Nat) :
    (∃ k < depth, all.filter (nests (k + 1)) = all.filter (nests k)) ∨
      depth ≤ (all.filter (nests depth)).length := by
  induction depth with
  | zero => exact .inr (Nat.zero_le _)
  | succ depth ih =>
      rcases ih with ⟨k, hk, hstable⟩ | hle
      · exact .inl ⟨k, Nat.lt_succ_of_lt hk, hstable⟩
      · have hsub := filter_nests_sublist all depth
        rcases Nat.eq_or_lt_of_le hsub.length_le with heq | hlt
        · exact .inl ⟨depth, Nat.lt_succ_self depth, (hsub.eq_of_length heq).symm⟩
        · exact .inr (Nat.lt_of_le_of_lt hle hlt)

theorem nests_length (hclosed : ∀ f ∈ all, ∀ g ∈ f.calls, g ∈ all) (hf : f ∈ all)
    (h : f.nests depth = true) : f.nests all.length = true := by
  rcases stable_or_le all (all.length + 1) with ⟨k, hk, hstable⟩ | hle
  · exact nests_mono (nests_of_stable hclosed hstable hf h) (Nat.le_of_lt_succ hk)
  · have hlength := List.length_filter_le (nests (all.length + 1)) all
    omega

end Closure

namespace Source

variable {frame : Frame} {all : List Closure}

theorem Expr.callsOfAll_subset {es : List Expr}
    (h : ∀ e ∈ es, e.calls frame ⊆ frame.functions) :
    Expr.callsOfAll frame es ⊆ frame.functions := by
  induction es with
  | nil => exact List.nil_subset _
  | cons e es ih =>
      rw [Expr.callsOfAll, List.append_subset]
      exact ⟨h e List.mem_cons_self, ih fun x hx => h x (List.mem_cons_of_mem _ hx)⟩

theorem Expr.calls_subset (e : Expr) : e.calls frame ⊆ frame.functions := by
  induction e using Expr.induction_args with
  | number value => exact List.nil_subset _
  | var name => exact List.nil_subset _
  | binary op lhs rhs ihl ihr =>
      rw [Expr.calls, List.append_subset]
      exact ⟨ihr, ihl⟩
  | call callee args ih =>
      rw [Expr.calls, List.append_subset]
      refine ⟨Expr.callsOfAll_subset ih, fun g hg => ?_⟩
      exact List.mem_of_find?_eq_some (Option.mem_toList.1 hg)

theorem Stmt.calls_subset (s : Stmt) : s.calls frame ⊆ frame.functions := by
  cases s with
  | define name params body => exact List.nil_subset _
  | assign target value | giveBack value span | eval value => exact value.calls_subset

theorem functions_past_subset (s : Stmt) (hframe : frame.functions ⊆ all)
    (hs : s.closures frame ⊆ all) : (frame.past s).functions ⊆ all := by
  cases s with
  | define name params body =>
      have hdefined : (frame.past (.define name params body)).functions =
          frame.closure name params body :: frame.functions := rfl
      rw [Stmt.closures, List.cons_subset] at hs
      rw [hdefined, List.cons_subset]
      exact ⟨hs.1, hframe⟩
  | assign target value | giveBack value span | eval value => exact hframe

theorem Stmt.callsOfAll_subset {ss : List Stmt} (hframe : frame.functions ⊆ all)
    (hss : Stmt.closuresOfAll frame ss ⊆ all) : Stmt.callsOfAll frame ss ⊆ all := by
  induction ss generalizing frame with
  | nil => exact List.nil_subset _
  | cons s ss ih =>
      rw [Stmt.closuresOfAll, List.append_subset] at hss
      rw [Stmt.callsOfAll, List.append_subset]
      refine ⟨List.Subset.trans s.calls_subset hframe, ?_⟩
      split
      · exact List.nil_subset _
      · exact ih (functions_past_subset s hframe hss.1) hss.2

theorem Stmt.calls_of_closures {ss : List Stmt} (hframe : frame.functions ⊆ all)
    (hss : Stmt.closuresOfAll frame ss ⊆ all) :
    ∀ f ∈ Stmt.closuresOfAll frame ss, f.calls ⊆ all := by
  induction ss using Stmt.induction_all generalizing frame with
  | nil => exact nofun
  | define name params body ss ihbody ih =>
      have hrest := functions_past_subset _ hframe
        (List.append_subset.1 (by simpa only [Stmt.closuresOfAll] using hss)).1
      rw [Stmt.closuresOfAll, List.append_subset, Stmt.closures, List.cons_subset] at hss
      obtain ⟨⟨hf, hbody⟩, hlater⟩ := hss
      have hinside : (frame.closure name params body).inside.functions ⊆ all :=
        List.cons_subset.2 ⟨hf, hframe⟩
      intro g hg
      rw [Stmt.closuresOfAll, Stmt.closures, List.cons_append, List.mem_cons,
        List.mem_append] at hg
      rcases hg with rfl | hg | hg
      · exact Stmt.callsOfAll_subset hinside hbody
      · exact ihbody hinside hbody g hg
      · exact ih hrest hlater g hg
  | assign target value ss ih =>
      rw [Stmt.closuresOfAll, Stmt.closures, List.nil_append] at hss ⊢
      exact ih hframe hss
  | giveBack value span ss ih =>
      rw [Stmt.closuresOfAll, Stmt.closures, List.nil_append] at hss ⊢
      exact ih hframe hss
  | eval value ss ih =>
      rw [Stmt.closuresOfAll, Stmt.closures, List.nil_append] at hss ⊢
      exact ih hframe hss

theorem Stmt.length_closuresOfAll (frame : Frame) (path : List String) (ss : List Stmt) :
    (Stmt.closuresOfAll frame ss).length = (Stmt.definitionsOfAll path ss).length := by
  induction ss using Stmt.induction_all generalizing frame path with
  | nil => rfl
  | define name params body ss ihbody ih =>
      simp [Stmt.closuresOfAll, Stmt.closures, Stmt.definitionsOfAll, Stmt.definitions,
        ihbody _ (path ++ [name.val]), ih _ path]
  | assign target value ss ih | giveBack value span ss ih | eval value ss ih =>
      simp [Stmt.closuresOfAll, Stmt.closures, Stmt.definitionsOfAll, Stmt.definitions,
        ih _ path]

theorem Program.nests_definitions {program : Program} {depth : Nat}
    (h : program.nests depth = true) : program.nests program.definitions.length = true := by
  have hsub : program.calls ⊆ program.closures :=
    Stmt.callsOfAll_subset (List.nil_subset _) (List.Subset.refl _)
  have hclosed : ∀ f ∈ program.closures, ∀ g ∈ f.calls, g ∈ program.closures :=
    fun f hf g hg =>
      Stmt.calls_of_closures (List.nil_subset _) (List.Subset.refl _) f hf hg
  have hlength : program.closures.length = program.definitions.length :=
    Stmt.length_closuresOfAll _ _ _
  rw [Program.nests, List.all_eq_true] at h ⊢
  rw [← hlength]
  exact fun f hf => Closure.nests_length hclosed (hsub hf) (h f hf)

end Source

end StackCalc
