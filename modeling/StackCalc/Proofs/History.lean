import StackCalc.Proofs.Boundaries
import StackCalc.Proofs.Transitions

/-!
# Variables told from what has been executed

Whatever bytes a machine runs, and however often it is stepped on after it has halted or faulted,
what it holds for a variable can be told from the instructions that it has executed: as many values
as it has been set more often than unset, the innermost from the latest set that no unset has
undone. An unset undoes the latest set of its variable that is not undone yet.
-/

namespace StackCalc.Machine

open Instruction (decode)

/-- An instruction that has been executed, with the operands that it found. -/
structure Executed where
  instruction : Instruction
  operands : List Number

/-- What the next step executes, if it does not fault. -/
def executed? (code : List UInt8) (m : Machine) : Option Executed :=
  match decode code m.ip with
  | .error _ => none
  | .ok i =>
    match (m.step code).2 with
    | .faulted _ => none
    | .running | .halted => some ⟨i, m.operands⟩

/-- What has been executed in a number of steps, in order. -/
def history (code : List UInt8) (n : Nat) (m : Machine) : List Executed :=
  (states code n m).filterMap (·.executed? code)

def sets (hash : UInt64) (past : List Executed) : Nat := past.countP (·.instruction = .set hash)

def unsets (hash : UInt64) (past : List Executed) : Nat :=
  past.countP (·.instruction = .unset hash)

/-- No unset is without a set before it, and the unsets leave a number of sets. -/
structure Leaves (hash : UInt64) (count : Nat) (past : List Executed) : Prop where
  matched : ∀ first, first <+: past → unsets hash first ≤ sets hash first
  left : sets hash past = unsets hash past + count

/-- A set to a value that has not been undone, with a number of sets behind it that have not been
undone either. -/
def LiveSet (hash : UInt64) (count : Nat) (value : Number) (past : List Executed) : Prop :=
  ∃ before rest behind, past = before ++ ⟨.set hash, value :: rest⟩ :: behind ∧
    Leaves hash count behind

/-- The latest set that has not been undone is to a value. -/
def LatestSet (hash : UInt64) (value : Number) (past : List Executed) : Prop :=
  LiveSet hash 0 value past

section Counts

variable {hash : UInt64} {count : Nat} {value : Number} {past behind : List Executed}
  {e : Executed}

theorem sets_snoc : sets hash (past ++ [e]) =
    sets hash past + if e.instruction = .set hash then 1 else 0 := by
  simp [sets, List.countP_cons]

theorem unsets_snoc : unsets hash (past ++ [e]) =
    unsets hash past + if e.instruction = .unset hash then 1 else 0 := by
  simp [unsets, List.countP_cons]

theorem leaves_nil : Leaves hash count [] ↔ count = 0 := by
  constructor
  · intro h
    exact (Nat.zero_add count ▸ h.left).symm
  · rintro rfl
    refine ⟨fun first hfirst => ?_, rfl⟩
    rw [List.prefix_nil.1 hfirst]
    exact Nat.le_refl _

/-- The unsets leave at least none, so only what comes before the last one needs to be matched. -/
theorem leaves_snoc : Leaves hash count (past ++ [e]) ↔
    (∀ first, first <+: past → unsets hash first ≤ sets hash first) ∧
      sets hash (past ++ [e]) = unsets hash (past ++ [e]) + count := by
  constructor
  · rintro ⟨hmatched, hleft⟩
    exact ⟨fun first hfirst => hmatched first (hfirst.trans (List.prefix_append _ _)), hleft⟩
  · rintro ⟨hmatched, hleft⟩
    refine ⟨fun first hfirst => ?_, hleft⟩
    rcases List.prefix_concat_iff.1 hfirst with rfl | hfirst
    · omega
    · exact hmatched first hfirst

theorem leaves_snoc_set (he : e.instruction = .set hash) :
    Leaves hash count (past ++ [e]) ↔ ∃ k, count = k + 1 ∧ Leaves hash k past := by
  rw [leaves_snoc, sets_snoc, unsets_snoc, he]
  simp only [reduceIte, reduceCtorEq]
  constructor
  · rintro ⟨hmatched, hleft⟩
    have hall := hmatched past (List.prefix_refl past)
    exact ⟨count - 1, by omega, hmatched, by omega⟩
  · rintro ⟨k, rfl, hmatched, hleft⟩
    exact ⟨hmatched, by omega⟩

theorem leaves_snoc_unset (he : e.instruction = .unset hash) :
    Leaves hash count (past ++ [e]) ↔ Leaves hash (count + 1) past := by
  rw [leaves_snoc, sets_snoc, unsets_snoc, he]
  simp only [reduceIte, reduceCtorEq]
  constructor
  · rintro ⟨hmatched, hleft⟩
    exact ⟨hmatched, by omega⟩
  · rintro ⟨hmatched, hleft⟩
    exact ⟨hmatched, by omega⟩

theorem leaves_snoc_other (hset : e.instruction ≠ .set hash)
    (hunset : e.instruction ≠ .unset hash) :
    Leaves hash count (past ++ [e]) ↔ Leaves hash count past := by
  rw [leaves_snoc, sets_snoc, unsets_snoc, if_neg hset, if_neg hunset]
  exact ⟨fun h => ⟨h.1, h.2⟩, fun h => ⟨h.matched, h.left⟩⟩

theorem liveSet_snoc : LiveSet hash count value (past ++ [e]) ↔
    (e.instruction = .set hash ∧ e.operands.head? = some value ∧ count = 0) ∨
      ∃ before rest behind, past = before ++ ⟨.set hash, value :: rest⟩ :: behind ∧
        Leaves hash count (behind ++ [e]) := by
  constructor
  · rintro ⟨before, rest, behind, hpast, hleaves⟩
    rcases List.eq_nil_or_concat behind with rfl | ⟨behind, last, rfl⟩
    · obtain ⟨-, he⟩ := List.append_inj' hpast rfl
      cases he
      exact .inl ⟨rfl, rfl, leaves_nil.1 hleaves⟩
    · rw [List.concat_eq_append] at hpast hleaves
      rw [← List.cons_append, ← List.append_assoc] at hpast
      obtain ⟨hbefore, he⟩ := List.append_inj' hpast rfl
      cases he
      exact .inr ⟨before, rest, behind, hbefore, hleaves⟩
  · rintro (⟨hset, hvalue, rfl⟩ | ⟨before, rest, behind, rfl, hleaves⟩)
    · obtain ⟨rest, hoperands⟩ := List.head?_eq_some_iff.1 hvalue
      obtain ⟨i, operands⟩ := e
      cases hset
      cases hoperands
      exact ⟨past, rest, [], rfl, leaves_nil.2 rfl⟩
    · refine ⟨before, rest, behind ++ [e], ?_, hleaves⟩
      rw [List.append_assoc, List.cons_append]

theorem liveSet_snoc_set (he : e.instruction = .set hash) :
    LiveSet hash count value (past ++ [e]) ↔
      (count = 0 ∧ e.operands.head? = some value) ∨
        ∃ k, count = k + 1 ∧ LiveSet hash k value past := by
  simp only [liveSet_snoc, leaves_snoc_set he]
  constructor
  · rintro (⟨-, hvalue, hcount⟩ | ⟨before, rest, behind, hpast, k, hcount, hleaves⟩)
    · exact .inl ⟨hcount, hvalue⟩
    · exact .inr ⟨k, hcount, before, rest, behind, hpast, hleaves⟩
  · rintro (⟨hcount, hvalue⟩ | ⟨k, hcount, before, rest, behind, hpast, hleaves⟩)
    · exact .inl ⟨he, hvalue, hcount⟩
    · exact .inr ⟨before, rest, behind, hpast, k, hcount, hleaves⟩

theorem liveSet_snoc_unset (he : e.instruction = .unset hash) :
    LiveSet hash count value (past ++ [e]) ↔ LiveSet hash (count + 1) value past := by
  simp only [liveSet_snoc, leaves_snoc_unset he, he, reduceCtorEq, false_and, false_or]
  rfl

theorem liveSet_snoc_other (hset : e.instruction ≠ .set hash)
    (hunset : e.instruction ≠ .unset hash) :
    LiveSet hash count value (past ++ [e]) ↔ LiveSet hash count value past := by
  simp only [liveSet_snoc, leaves_snoc_other hset hunset, hset, false_and, false_or]
  rfl

end Counts

variable {code : List UInt8} {size : Nat} {m m' : Machine} {i : Instruction}

theorem Performs.stack (h : Performs size m i m')
    (hproper : m.bindings.Proper) (hash : UInt64) :
    (i = .set hash ∧ ∃ value, m.operands.head? = some value ∧
        m'.bindings.stack hash = value :: m.bindings.stack hash) ∨
      (i = .unset hash ∧ ∃ value, m.bindings.stack hash = value :: m'.bindings.stack hash) ∨
      (i ≠ .set hash ∧ i ≠ .unset hash ∧ m'.bindings.stack hash = m.bindings.stack hash) := by
  cases h with
  | @set other value rest h =>
      dsimp only
      rw [Bindings.stack_push]
      by_cases heq : hash = other
      · subst heq
        exact .inl ⟨rfl, value, by rw [h]; rfl, if_pos rfl⟩
      · refine .inr (.inr ⟨fun hi => heq ?_, nofun, if_neg heq⟩)
        cases hi
        rfl
  | @unset other values h =>
      dsimp only
      rw [Bindings.stack_pop]
      by_cases heq : hash = other
      · subst heq
        rw [if_pos rfl]
        cases hstack : m.bindings.stack hash with
        | nil => exact absurd hstack (hproper.stack_ne_nil h)
        | cons value rest => exact .inr (.inl ⟨rfl, value, rfl⟩)
      · refine .inr (.inr ⟨nofun, fun hi => heq ?_, if_neg heq⟩)
        cases hi
        rfl
  | _ => exact .inr (.inr ⟨nofun, nofun, rfl⟩)

theorem Performs.in_bounds (h : Performs size m i m') (hip : m.ip ≤ size)
    (hreturns : ∀ address ∈ m.returns, address ≤ size) :
    m'.ip ≤ size ∧ ∀ address ∈ m'.returns, address ≤ size := by
  cases h with
  | jump h => exact ⟨h, hreturns⟩
  | call h => exact ⟨h, List.forall_mem_cons.2 ⟨hip, hreturns⟩⟩
  | ret h => exact List.forall_mem_cons.1 (h ▸ hreturns)
  | _ => exact ⟨hip, hreturns⟩

/-- A step executes the instruction at the pointer, or leaves the return addresses and the bindings
and goes past that instruction at most. -/
theorem executes_or_leaves (code : List UInt8) (m : Machine) :
    (∃ i, decode code m.ip = .ok i ∧ m.executed? code = some ⟨i, m.operands⟩ ∧
        Performs code.length (m.beyond i) i (m.step code).1) ∨
      (m.executed? code = none ∧ (m.step code).1.returns = m.returns ∧
        (m.step code).1.bindings = m.bindings ∧
        (m.ip ≤ code.length → (m.step code).1.ip ≤ code.length)) := by
  obtain ⟨m', status, h⟩ := exists_transition code m
  unfold executed?
  rw [h.step_eq]
  cases h with
  | stays hend =>
      cases hdecode : decode code m.ip with
      | error e => exact .inr ⟨rfl, rfl, rfl, id⟩
      | ok i =>
          exact absurd (Instruction.lt_length_of_decode hdecode) (Nat.not_lt.2 hend)
  | garbled _ hdecode =>
      rw [hdecode]
      exact .inr ⟨rfl, rfl, rfl, id⟩
  | refused hdecode hrefuses =>
      obtain ⟨hip, -, hreturns, hbindings, -⟩ := hrefuses.leaves
      rw [hdecode]
      refine .inr ⟨rfl, hreturns, hbindings, fun _ => ?_⟩
      rw [hip]
      exact Instruction.add_encodedLength_le_of_decode hdecode
  | performed hdecode hperforms hstatus =>
      rw [hdecode]
      refine .inl ⟨_, rfl, ?_, hperforms⟩
      by_cases hend : code.length ≤ m'.ip
      · rw [hstatus, if_pos hend]
      · rw [hstatus, if_neg hend]

/-- A machine in bounds whose bindings are told by what has been executed. -/
structure Accounts (code : List UInt8) (past : List Executed) (m : Machine) : Prop where
  ip_le : m.ip ≤ code.length
  returns_le : ∀ address ∈ m.returns, address ≤ code.length
  proper : m.bindings.Proper
  depth : ∀ hash, sets hash past = unsets hash past + m.bindings.depth hash
  live : ∀ hash k value,
    (m.bindings.stack hash)[k]? = some value ↔ LiveSet hash k value past

theorem Accounts.initial : Accounts code [] initial where
  ip_le := Nat.zero_le _
  returns_le := nofun
  proper := Bindings.proper_empty
  depth _ := rfl
  live hash k value := by
    constructor
    · intro h
      cases h
    · rintro ⟨before, rest, behind, hpast, -⟩
      exact absurd hpast.symm (List.append_ne_nil_of_right_ne_nil _ (List.cons_ne_nil _ _))

theorem Accounts.step {past : List Executed} (h : Accounts code past m) :
    Accounts code (past ++ (m.executed? code).toList) (m.step code).1 := by
  obtain ⟨i, hdecode, hexecuted, hperforms⟩ | ⟨hnone, hreturns, hbindings, hip⟩ :=
    executes_or_leaves code m
  · have hpast := Instruction.add_encodedLength_le_of_decode hdecode
    obtain ⟨hip, hreturns⟩ := hperforms.in_bounds hpast h.returns_le
    have hstack := hperforms.stack h.proper
    rw [hexecuted, Option.toList_some]
    refine ⟨hip, hreturns, hperforms.proper h.proper, fun hash => ?_, fun hash k value => ?_⟩
    · have hdepth := h.depth hash
      unfold Bindings.depth at hdepth ⊢
      rw [sets_snoc, unsets_snoc]
      obtain ⟨hset, top, -, hvalues⟩ | ⟨hunset, top, hvalues⟩ | ⟨hset, hunset, hvalues⟩ :=
        hstack hash
      · rw [hset, hvalues, List.length_cons, if_pos rfl, if_neg nofun]
        exact (congrArg (· + 1) hdepth).trans (Nat.add_assoc _ _ 1)
      · have hlength := congrArg List.length hvalues
        rw [List.length_cons] at hlength
        rw [hunset, if_pos rfl, if_neg nofun]
        change (m.bindings.stack hash).length = _ at hlength
        omega
      · rw [if_neg hset, if_neg hunset, hvalues]
        exact hdepth
    · obtain ⟨hset, top, htop, hvalues⟩ | ⟨hunset, top, hvalues⟩ | ⟨hset, hunset, hvalues⟩ :=
        hstack hash
      · change m.operands.head? = some top at htop
        rw [liveSet_snoc_set hset, hvalues]
        cases k with
        | zero => simp [htop]
        | succ k => simpa [beyond] using h.live hash k value
      · change m.bindings.stack hash = top :: _ at hvalues
        rw [liveSet_snoc_unset hunset, ← h.live, hvalues, List.getElem?_cons_succ]
      · rw [liveSet_snoc_other hset hunset, hvalues]
        exact h.live hash k value
  · rw [hnone, Option.toList_none, List.append_nil]
    refine ⟨hip h.ip_le, ?_, ?_, ?_, ?_⟩
    · rw [hreturns]
      exact h.returns_le
    · rw [hbindings]
      exact h.proper
    · rw [hbindings]
      exact h.depth
    · rw [hbindings]
      exact h.live

theorem states_succ (code : List UInt8) (n : Nat) (m : Machine) :
    states code (n + 1) m = states code n m ++ [after code n m] := states_add m n 1

theorem after_accounts (h : Accounts code [] m) (n : Nat) :
    Accounts code (history code n m) (after code n m) := by
  induction n with
  | zero => exact h
  | succ n ih =>
      have hstep := ih.step
      rw [after_add, history, states_succ, List.filterMap_append]
      rw [history] at hstep
      exact hstep

theorem misses_iff {hash : UInt64} (hproper : m.bindings.Proper)
    (hdecode : decode code m.ip = .ok (.get hash) ∨ decode code m.ip = .ok (.unset hash)) :
    (m.step code).2 = .faulted ⟨m.ip, .unbound hash⟩ ↔ m.bindings.stack hash = [] := by
  rcases hdecode with hdecode | hdecode
  · rw [faulted_iff hdecode, ← List.head?_eq_none_iff]
    constructor
    · rintro ⟨m', hrefuses⟩
      cases hrefuses with
      | get hnone => exact hnone
    · intro hnone
      exact ⟨_, .get hnone⟩
  · rw [faulted_iff hdecode, ← hproper.stack?_eq_none_iff]
    constructor
    · rintro ⟨m', hrefuses⟩
      cases hrefuses with
      | unset hnone => exact hnone
    · intro hnone
      exact ⟨_, .unset hnone⟩

theorem pushes_iff {hash : UInt64} {value : Number} (hdecode : decode code m.ip = .ok (.get hash)) :
    (m.step code).1.operands = value :: m.operands ↔ m.bindings.top? hash = some value := by
  cases htop : m.bindings.top? hash with
  | none =>
      rw [(Transition.refused hdecode (.get htop)).step_eq]
      apply iff_of_false
      · exact (List.cons_ne_self value m.operands).symm
      · exact nofun
  | some top =>
      rw [(Transition.performed hdecode (.get htop) rfl).step_eq, Option.some_inj]
      exact List.cons_eq_cons.trans (and_iff_left rfl)

/-- However often a machine has been stepped on over whatever bytes, its pointer and its return
addresses are in bounds and no variable is kept without a value. It holds as many values of a
variable as it has been set more often than unset, and the innermost is from the latest set that
has not been undone: this is the value that a `get` pushes. Just where the variable has been unset
as often as set, a `get` or `unset` misses it. -/
theorem store_accounts (code : List UInt8) (n : Nat) :
    (after code n initial).ip ≤ code.length ∧
      (∀ address ∈ (after code n initial).returns, address ≤ code.length) ∧
      (after code n initial).bindings.Proper ∧
      ∀ hash,
        unsets hash (history code n initial) ≤ sets hash (history code n initial) ∧
        (after code n initial).bindings.depth hash =
          sets hash (history code n initial) - unsets hash (history code n initial) ∧
        (decode code (after code n initial).ip = .ok (.get hash) → ∀ value,
          ((after code n initial).step code).1.operands =
              value :: (after code n initial).operands ↔
            LatestSet hash value (history code n initial)) ∧
        (decode code (after code n initial).ip = .ok (.get hash) ∨
            decode code (after code n initial).ip = .ok (.unset hash) →
          (((after code n initial).step code).2 =
              .faulted ⟨(after code n initial).ip, .unbound hash⟩ ↔
            sets hash (history code n initial) = unsets hash (history code n initial))) := by
  have h : Accounts code (history code n initial) (after code n initial) :=
    after_accounts .initial n
  refine ⟨h.ip_le, h.returns_le, h.proper, fun hash => ?_⟩
  have hdepth := h.depth hash
  refine ⟨by omega, by omega, fun hdecode value => ?_, fun hdecode => ?_⟩
  · rw [pushes_iff hdecode, Bindings.top?, List.head?_eq_getElem?]
    exact h.live hash 0 value
  · rw [misses_iff h.proper hdecode, ← List.length_eq_zero_iff]
    change (after code n initial).bindings.depth hash = 0 ↔ _
    omega

/-- Code that sets a variable twice, and then reads and unsets it by turns. -/
def shadowed : List UInt8 :=
  List.flatMap Instruction.encode [.push .zero, .set 7, .push .infinity, .set 7, .unset 7, .get 7,
    .unset 7, .get 7]

/-- The first `get` reads the first set, as the second has been undone; the second `get` finds
nothing. -/
theorem shadowed_value_comes_back :
    LatestSet 7 .zero (history shadowed 5 initial) ∧
      (after shadowed 5 initial).bindings.depth 7 = 1 ∧
      (after shadowed 6 initial).operands = [.zero] ∧
      sets 7 (history shadowed 7 initial) = unsets 7 (history shadowed 7 initial) := by
  obtain ⟨-, -, -, hfive⟩ := store_accounts shadowed 5
  obtain ⟨-, -, -, hseven⟩ := store_accounts shadowed 7
  obtain ⟨-, -, hget, -⟩ := hfive 7
  obtain ⟨-, -, -, hmisses⟩ := hseven 7
  have hfault : ((after shadowed 7 initial).step shadowed).2 = .faulted ⟨63, .unbound 7⟩ := by
    decide +kernel
  exact ⟨(hget rfl .zero).1 rfl, rfl, rfl, (hmisses (.inl rfl)).1 hfault⟩

end StackCalc.Machine
