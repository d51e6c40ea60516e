import StackCalc.Proofs.Transitions

/-!
# What lies below is out of reach

An instruction looks at the tops of the stacks alone. So what a machine does without a fault, it
does in the same way with more operands, more return addresses and more values of variables below
its own, and at the end these are still there, untouched. It is why a call can be made in the middle
of an expression, and a function be entered while its variables are bound.
-/

namespace StackCalc.Machine

open Instruction (decode)

/-- What may lie below the stacks of a machine. -/
structure Below where
  operands : List Number
  returns : List Nat
  values : UInt64 → List Number

/-- A machine rests on what lies below the stacks of another one, which is the same otherwise. -/
structure RestsOn (below : Below) (m m' : Machine) : Prop where
  ip : m'.ip = m.ip
  operands : m'.operands = m.operands ++ below.operands
  returns : m'.returns = m.returns ++ below.returns
  bindings : ∀ hash, m'.bindings.stack hash = m.bindings.stack hash ++ below.values hash
  printed : m'.printed = m.printed

variable {code : List UInt8} {below : Below} {size : Nat} {m m' m₁ : Machine} {i : Instruction}

theorem RestsOn.top? (h : RestsOn below m m') {hash : UInt64} {value : Number}
    (hvalue : m.bindings.top? hash = some value) : m'.bindings.top? hash = some value := by
  obtain ⟨rest, hstack⟩ := List.head?_eq_some_iff.1 hvalue
  rw [Bindings.top?, h.bindings hash, hstack]
  rfl

theorem RestsOn.push (h : RestsOn below m m') (hash : UInt64) (value : Number) (other : UInt64) :
    (m'.bindings.push hash value).stack other =
      (m.bindings.push hash value).stack other ++ below.values other := by
  rw [Bindings.stack_push, Bindings.stack_push, h.bindings other]
  by_cases heq : other = hash
  · rw [if_pos heq, if_pos heq, List.cons_append]
  · rw [if_neg heq, if_neg heq]

theorem RestsOn.pop (h : RestsOn below m m') {hash : UInt64} (hne : m.bindings.stack hash ≠ [])
    (other : UInt64) : (m'.bindings.pop hash).stack other =
      (m.bindings.pop hash).stack other ++ below.values other := by
  rw [Bindings.stack_pop, Bindings.stack_pop, h.bindings other]
  by_cases heq : other = hash
  · subst heq
    rw [if_pos rfl, if_pos rfl, List.tail_append_of_ne_nil hne]
  · rw [if_neg heq, if_neg heq]

theorem Performs.restsOn (h : Performs size m i m₁) (hproper : m.bindings.Proper)
    (hrests : RestsOn below m m') : ∃ m₁', Performs size m' i m₁' ∧ RestsOn below m₁ m₁' := by
  have ⟨hip, hoperands, hreturns, hbindings, hprinted⟩ := hrests
  cases h with
  | jump h => exact ⟨_, .jump h, rfl, hoperands, hreturns, hbindings, hprinted⟩
  | call h =>
      refine ⟨_, .call h, rfl, hoperands, ?_, hbindings, hprinted⟩
      rw [hip, hreturns, List.cons_append]
  | ret h =>
      rw [h] at hreturns
      exact ⟨_, .ret hreturns, rfl, hoperands, rfl, hbindings, hprinted⟩
  | arith h =>
      rw [h] at hoperands
      exact ⟨_, .arith hoperands, hip, rfl, hreturns, hbindings, hprinted⟩
  | @push value =>
      exact ⟨_, .push, hip, congrArg (value :: ·) hoperands, hreturns, hbindings, hprinted⟩
  | pop h =>
      rw [h] at hoperands
      exact ⟨_, .pop hoperands, hip, rfl, hreturns, hbindings, hprinted⟩
  | set h =>
      rw [h] at hoperands
      exact ⟨_, .set hoperands, hip, rfl, hreturns, hrests.push _ _, hprinted⟩
  | @get hash value h =>
      exact ⟨_, .get (hrests.top? h), hip, congrArg (value :: ·) hoperands, hreturns, hbindings,
        hprinted⟩
  | @unset hash values h =>
      have hne := hproper.stack_ne_nil h
      have hne' : m'.bindings.stack hash ≠ [] := by
        rw [hbindings]
        exact List.append_ne_nil_of_left_ne_nil hne _
      obtain ⟨values', hvalues'⟩ := Bindings.stack?_ne_none hne'
      exact ⟨_, .unset hvalues', hip, hoperands, hreturns, hrests.pop hne, hprinted⟩
  | print hid h =>
      rw [h] at hoperands
      refine ⟨_, .print hid hoperands, hip, rfl, hreturns, hbindings, ?_⟩
      rw [hprinted]

theorem RestsOn.beyond (h : RestsOn below m m') (i : Instruction) :
    RestsOn below (m.beyond i) (m'.beyond i) := by
  refine ⟨?_, h.operands, h.returns, h.bindings, h.printed⟩
  rw [Machine.beyond, Machine.beyond, h.ip]

theorem step_proper (h : m.bindings.Proper) : (m.step code).1.bindings.Proper := by
  obtain ⟨m', status, htransition⟩ := exists_transition code m
  rw [htransition.step_eq]
  cases htransition with
  | stays _ => exact h
  | garbled _ _ => exact h
  | refused _ hrefuses =>
      obtain ⟨-, -, -, hbindings, -⟩ := hrefuses.leaves
      rw [hbindings]
      exact h
  | performed _ hperforms _ => exact hperforms.proper h

theorem RestsOn.step (h : RestsOn below m m') (hproper : m.bindings.Proper)
    (hruns : ∀ fault, (m.step code).2 ≠ .faulted fault) :
    (m'.step code).2 = (m.step code).2 ∧ RestsOn below (m.step code).1 (m'.step code).1 := by
  obtain ⟨m₁, status, htransition⟩ := exists_transition code m
  rw [htransition.step_eq] at hruns ⊢
  cases htransition with
  | stays hend =>
      rw [← h.ip] at hend
      rw [step_of_end hend]
      exact ⟨rfl, h⟩
  | garbled _ _ => exact absurd rfl (hruns _)
  | refused _ _ => exact absurd rfl (hruns _)
  | performed hdecode hperforms hstatus =>
      obtain ⟨m₁', hperforms', hrests⟩ := hperforms.restsOn hproper (h.beyond _)
      rw [← h.ip] at hdecode
      rw [← hrests.ip] at hstatus
      rw [(Transition.performed hdecode hperforms' hstatus).step_eq]
      exact ⟨rfl, hrests⟩

theorem after_proper (h : m.bindings.Proper) (n : Nat) : (after code n m).bindings.Proper := by
  induction n generalizing m with
  | zero => exact h
  | succ n ih => exact ih (step_proper h)

/-- As long as a machine does not fault, it goes the same way on top of other values: each step is
at the same place and ends in the same way, the same is printed, and all that lies below the stacks
stays there as it is. -/
theorem runs_alike_above {n : Nat} (hproper : m.bindings.Proper) (hrests : RestsOn below m m')
    (hruns : ∀ k < n, ∀ fault, ((after code k m).step code).2 ≠ .faulted fault) :
    (∀ k < n, ((after code k m').step code).2 = ((after code k m).step code).2) ∧
      (∀ k ≤ n, RestsOn below (after code k m) (after code k m')) ∧
      (m'.bindings.Proper → (after code n m').bindings.Proper) := by
  have hafter : ∀ k ≤ n, RestsOn below (after code k m) (after code k m') := by
    intro k hk
    induction k with
    | zero => exact hrests
    | succ k ih =>
        rw [after_add, after_add]
        exact ((ih (Nat.le_of_succ_le hk)).step (after_proper hproper k) (hruns k hk)).2
  refine ⟨fun k hk => ?_, hafter, fun hproper' => after_proper hproper' n⟩
  exact ((hafter k (Nat.le_of_lt hk)).step (after_proper hproper k) (hruns k hk)).1

/-- Code that binds what it finds on top, reads it and prints it. -/
def bindAndPrint : List UInt8 :=
  List.flatMap Instruction.encode [.set 7, .get 7, .interrupt 0, .unset 7]

/-- A machine that has a value to bind. -/
def alone : Machine := ⟨0, [.zero], [], ∅, #[]⟩

/-- The same machine with another value of the variable, an operand and a return address below. -/
def nested : Machine :=
  ⟨0, [.zero, .infinity], [5], Bindings.empty.push (7 : UInt64) Number.infinity, #[]⟩

theorem nested_runs_as_alone :
    (after bindAndPrint 4 nested).printed = #[.zero] ∧
      (after bindAndPrint 4 nested).operands = [.infinity] ∧
      (after bindAndPrint 4 nested).returns = [5] ∧
      (after bindAndPrint 4 nested).bindings.stack 7 = [.infinity] := by
  have hrests : RestsOn ⟨[.infinity], [5], fun hash => if hash = 7 then [.infinity] else []⟩
      alone nested := by
    refine ⟨rfl, rfl, rfl, fun hash => ?_, rfl⟩
    exact Bindings.stack_push Bindings.empty 7 hash Number.infinity
  have hends : ∀ k < 4, ((after bindAndPrint k alone).step bindAndPrint).2 = .running ∨
      ((after bindAndPrint k alone).step bindAndPrint).2 = .halted := by
    decide +kernel
  have hruns : ∀ k < 4, ∀ fault,
      ((after bindAndPrint k alone).step bindAndPrint).2 ≠ .faulted fault := by
    intro k hk fault hfault
    rcases hends k hk with hend | hend <;> cases hend.symm.trans hfault
  obtain ⟨-, hafter, -⟩ := runs_alike_above Bindings.proper_empty hrests hruns
  have hlast := hafter 4 (Nat.le_refl 4)
  exact ⟨hlast.printed, hlast.operands, hlast.returns, hlast.bindings 7⟩

end StackCalc.Machine
