import StackCalc.Machine.Basic
import StackCalc.Proofs.Codec

/-!
# Runs of the machine

A path lists the states that the machine moves through, one instruction after another without a
fault, on its way from one state to another. Since the machine has one next state at most, a path
says what a run of its length does.
-/

namespace StackCalc.Machine

/-- The state after a number of steps. A machine that has halted stays as it is. -/
def after (code : List UInt8) : Nat → Machine → Machine
  | 0, m => m
  | n + 1, m => after code n (m.step code).1

/-- The states that a number of steps begin in. -/
def states (code : List UInt8) : Nat → Machine → List Machine
  | 0, _ => []
  | n + 1, m => m :: states code n (m.step code).1

/-- The machine decodes and executes an instruction without a fault. -/
def Moves (code : List UInt8) (m m' : Machine) : Prop :=
  ∃ i, Instruction.decode code m.ip = .ok i ∧
    execute code.length { m with ip := m.ip + i.encodedLength } i = (m', none)

inductive Path (code : List UInt8) : Machine → List Machine → Machine → Prop
  | nil (m) : Path code m [] m
  | cons {m m₁ m₂ passed} (h : Moves code m m₁) (rest : Path code m₁ passed m₂) :
      Path code m (m :: passed) m₂

/-- What a state is about to set while certain addresses are on its return stack. -/
def setAt? (code : List UInt8) (returns : List Nat) (m : Machine) : Option (UInt64 × Number) :=
  if m.returns = returns then
    match Instruction.decode code m.ip, m.operands with
    | .ok (.set hash), value :: _ => some (hash, value)
    | _, _ => none
  else none

variable {code : List UInt8} {m m' m'' : Machine} {passed passed' : List Machine}

theorem Path.append (h : Path code m passed m') (h' : Path code m' passed' m'') :
    Path code m (passed ++ passed') m'' := by
  induction h with
  | nil => exact h'
  | cons hmove _ ih => exact .cons hmove (ih h')

theorem Path.single (h : Moves code m m') : Path code m [m] m' := .cons h (.nil m')

/-- A path all of whose states have a property. -/
def Passes (code : List UInt8) (P : Machine → Prop) (m : Machine) (passed : List Machine)
    (m' : Machine) : Prop :=
  Path code m passed m' ∧ ∀ p ∈ passed, P p

variable {P P' : Machine → Prop}

theorem Passes.nil (m : Machine) : Passes code P m [] m := ⟨.nil m, by simp⟩

theorem Passes.single (hP : P m) (h : Moves code m m') : Passes code P m [m] m' :=
  ⟨.single h, by simpa using hP⟩

theorem Passes.append (h : Passes code P m passed m') (h' : Passes code P m' passed' m'') :
    Passes code P m (passed ++ passed') m'' := by
  refine ⟨h.1.append h'.1, ?_⟩
  intro p hp
  exact (List.mem_append.1 hp).elim (h.2 p) (h'.2 p)

theorem Passes.mono (h : Passes code P m passed m') (hP : ∀ p, P p → P' p) :
    Passes code P' m passed m' := ⟨h.1, fun p hp => hP p (h.2 p hp)⟩

theorem Moves.lt (h : Moves code m m') : m.ip < code.length := by
  obtain ⟨i, hd, -⟩ := h
  exact Instruction.lt_length_of_decode hd

theorem Moves.step (h : Moves code m m') :
    m.step code = (m', if code.length ≤ m'.ip then .halted else .running) := by
  have hlt := h.lt
  obtain ⟨i, hd, he⟩ := h
  simp only [Machine.step, hd, he, if_neg (Nat.not_le.2 hlt)]

theorem step_of_end (h : code.length ≤ m.ip) : m.step code = (m, .halted) := by
  simp only [step, if_pos h]

theorem after_of_end (h : code.length ≤ m.ip) (n : Nat) : after code n m = m := by
  induction n with
  | zero => rfl
  | succ n ih => rw [after, step_of_end h, ih]

theorem after_add (m : Machine) (a b : Nat) :
    after code (a + b) m = after code b (after code a m) := by
  induction a generalizing m with
  | zero => rw [Nat.zero_add, after]
  | succ a ih => rw [Nat.succ_add, after, after, ih]

theorem states_add (m : Machine) (a b : Nat) :
    states code (a + b) m = states code a m ++ states code b (after code a m) := by
  induction a generalizing m with
  | zero => rw [Nat.zero_add, after, states, List.nil_append]
  | succ a ih => rw [Nat.succ_add, states, states, after, ih, List.cons_append]

theorem after_mem_states {n limit : Nat} (h : n < limit) (m : Machine) :
    after code n m ∈ states code limit m := by
  induction n generalizing m limit with
  | zero =>
      obtain ⟨limit, rfl⟩ := Nat.exists_eq_succ_of_ne_zero (Nat.ne_of_gt h)
      exact List.mem_cons_self
  | succ n ih =>
      obtain ⟨limit, rfl⟩ := Nat.exists_eq_succ_of_ne_zero (Nat.ne_of_gt (Nat.zero_lt_of_lt h))
      exact List.mem_cons_of_mem m (ih (Nat.lt_of_succ_lt_succ h) _)

/-- A path is what a run of its length does. -/
theorem Path.after (h : Path code m passed m') :
    passed = states code passed.length m ∧ Machine.after code passed.length m = m' := by
  induction h with
  | nil => exact ⟨rfl, rfl⟩
  | cons hmove _ ih =>
      rw [List.length_cons, states, Machine.after, hmove.step]
      exact ⟨congrArg _ ih.1, ih.2⟩

theorem Path.moves (h : Path code m passed m') : ∀ p ∈ passed, ∃ p', Moves code p p' := by
  induction h with
  | nil => simp
  | cons hmove _ ih =>
      intro p hp
      rcases List.mem_cons.1 hp with rfl | hp
      · exact ⟨_, hmove⟩
      · exact ih p hp

/-- A path to the end of the code is a run that halts. -/
theorem Path.run_halted (h : Path code m passed m') (hend : code.length ≤ m'.ip) :
    m.run code (passed.length + 1) = (m', .halted) := by
  induction h with
  | nil => rw [run, step_of_end hend]
  | @cons m m₁ m₂ passed hmove rest ih =>
      rw [List.length_cons, run, hmove.step]
      by_cases hhalted : code.length ≤ m₁.ip
      · cases rest with
        | nil => rw [if_pos hhalted]
        | cons hmove' _ => exact absurd hhalted (Nat.not_le.2 hmove'.lt)
      · rw [if_neg hhalted]
        exact ih hend

/-- A path that stays inside the code is a run that is not over. -/
theorem Path.run_running (h : Path code m passed m') (hinside : m'.ip < code.length) :
    m.run code passed.length = (m', .running) := by
  induction h with
  | nil => rfl
  | @cons m m₁ m₂ passed hmove rest ih =>
      have hlt : m₁.ip < code.length := by
        cases rest with
        | nil => exact hinside
        | cons hmove' _ => exact hmove'.lt
      rw [List.length_cons, run, hmove.step, if_neg (Nat.not_le.2 hlt)]
      exact ih hinside

/-- Before the end of a path a run is not over. -/
theorem Path.run_before (h : Path code m passed m') {n : Nat} (hlt : n < passed.length) :
    ∃ m'', m.run code n = (m'', .running) := by
  induction h generalizing n with
  | nil => exact absurd hlt (Nat.not_lt_zero n)
  | @cons m m₁ m₂ passed hmove rest ih =>
      cases n with
      | zero => exact ⟨m, rfl⟩
      | succ n =>
          have hn : n < passed.length := Nat.lt_of_succ_lt_succ hlt
          have hlater : m₁.ip < code.length := by
            cases rest with
            | nil => exact absurd hn (Nat.not_lt_zero n)
            | cons hmove' _ => exact hmove'.lt
          rw [run, hmove.step, if_neg (Nat.not_le.2 hlater)]
          exact ih hn

theorem run_mono {n limit : Nat} (h : m.run code n = (m', .halted)) (hle : n ≤ limit) :
    m.run code limit = (m', .halted) := by
  induction n generalizing m limit with
  | zero => cases h
  | succ n ih =>
      obtain ⟨limit, rfl⟩ := Nat.exists_eq_succ_of_ne_zero
        (Nat.ne_of_gt (Nat.lt_of_lt_of_le (Nat.succ_pos n) hle))
      rw [run] at h ⊢
      cases hstep : m.step code with
      | mk m₁ status =>
          rw [hstep] at h
          cases status with
          | running => exact ih h (Nat.le_of_succ_le_succ hle)
          | halted => exact h
          | faulted fault => exact h

theorem setAt?_of_end {returns : List Nat} (h : code.length ≤ m.ip) :
    m.setAt? code returns = none := by
  unfold setAt?
  split
  · split
    · next hd _ => exact absurd (Instruction.lt_length_of_decode hd) (Nat.not_lt.2 h)
    · rfl
  · rfl

theorem states_of_end (h : code.length ≤ m.ip) (n : Nat) :
    states code n m = List.replicate n m := by
  induction n with
  | zero => rfl
  | succ n ih => rw [states, step_of_end h, ih, List.replicate_succ]

/-- A run that has halted has gone a whole path, and has set nothing behind it. -/
theorem Path.sets_of_run_halted {n : Nat} (h : Path code m passed m') (returns : List Nat)
    (hend : code.length ≤ m'.ip) (hrun : m.run code n = (m'', .halted)) : m'' = m' ∧
      (states code n m).filterMap (·.setAt? code returns) =
        passed.filterMap (·.setAt? code returns) := by
  have hle : passed.length ≤ n := by
    by_contra hlt
    obtain ⟨m₁, hrunning⟩ := h.run_before (Nat.lt_of_not_le hlt)
    rw [hrun] at hrunning
    cases hrunning
  have hlong := run_mono hrun (Nat.le_add_right n 1)
  rw [run_mono (h.run_halted hend) (Nat.add_le_add_right hle 1)] at hlong
  refine ⟨(Prod.mk.inj hlong).1.symm, ?_⟩
  obtain ⟨k, rfl⟩ := Nat.exists_eq_add_of_le hle
  rw [states_add, h.after.2, ← h.after.1, states_of_end hend, List.filterMap_append,
    List.filterMap_replicate_of_none (setAt?_of_end hend), List.append_nil]

end StackCalc.Machine
