import StackCalc.Proofs.Bindings
import StackCalc.Proofs.Run

/-!
# What a step can do

An instruction is carried out by a rule of its kind, or refused by one that says what is missing and
what the machine is left with. A step stays at the end of the code, stops at bytes that are no
instruction, or carries out or refuses the instruction there; it can do nothing else. Hence a step
that faults disturbs little: at most the pointer moves on and a lone operand is lost.
-/

namespace StackCalc.Machine

open Instruction (decode)

/-- How an instruction is carried out in code of a size, the pointer being past it. -/
inductive Performs (size : Nat) (m : Machine) : Instruction → Machine → Prop
  | jump {address : UInt32} (h : address.toNat ≤ size) :
      Performs size m (.jump address) { m with ip := address.toNat }
  | call {address : UInt32} (h : address.toNat ≤ size) :
      Performs size m (.call address) { m with ip := address.toNat, returns := m.ip :: m.returns }
  | ret {address : Nat} {rest : List Nat} (h : m.returns = address :: rest) :
      Performs size m .ret { m with ip := address, returns := rest }
  | arith {op : BinaryOp} {lhs rhs : Number} {rest : List Number}
      (h : m.operands = lhs :: rhs :: rest) :
      Performs size m (.arith op) { m with operands := op.apply lhs rhs :: rest }
  | push {value : Number} :
      Performs size m (.push value) { m with operands := value :: m.operands }
  | pop {value : Number} {rest : List Number} (h : m.operands = value :: rest) :
      Performs size m .pop { m with operands := rest }
  | set {hash : UInt64} {value : Number} {rest : List Number} (h : m.operands = value :: rest) :
      Performs size m (.set hash)
        { m with operands := rest, bindings := m.bindings.push hash value }
  | get {hash : UInt64} {value : Number} (h : m.bindings.top? hash = some value) :
      Performs size m (.get hash) { m with operands := value :: m.operands }
  | unset {hash : UInt64} {values : List Number} (h : m.bindings.stack? hash = some values) :
      Performs size m (.unset hash) { m with bindings := m.bindings.pop hash }
  | print {id : UInt8} {value : Number} {rest : List Number}
      (hid : Interrupt.ofId? id = some .print) (h : m.operands = value :: rest) :
      Performs size m (.interrupt id)
        { m with operands := rest, printed := m.printed.push value }

/-- Why an instruction is not carried out, and what the machine is left with. -/
inductive Refuses (size : Nat) (m : Machine) : Instruction → FaultCause → Machine → Prop
  | jump {address : UInt32} (h : size < address.toNat) :
      Refuses size m (.jump address) (.addressOutOfBounds address) m
  | call {address : UInt32} (h : size < address.toNat) :
      Refuses size m (.call address) (.addressOutOfBounds address) m
  | ret (h : m.returns = []) : Refuses size m .ret .emptyReturnStack m
  | arith {op : BinaryOp} (h : m.operands.length < 2) :
      Refuses size m (.arith op) .emptyOperandStack { m with operands := [] }
  | pop (h : m.operands = []) : Refuses size m .pop .emptyOperandStack m
  | set {hash : UInt64} (h : m.operands = []) : Refuses size m (.set hash) .emptyOperandStack m
  | get {hash : UInt64} (h : m.bindings.top? hash = none) :
      Refuses size m (.get hash) (.unbound hash) m
  | unset {hash : UInt64} (h : m.bindings.stack? hash = none) :
      Refuses size m (.unset hash) (.unbound hash) m
  | print {id : UInt8} (hid : Interrupt.ofId? id = some .print) (h : m.operands = []) :
      Refuses size m (.interrupt id) .emptyOperandStack m
  | interrupt {id : UInt8} (h : Interrupt.ofId? id = none) :
      Refuses size m (.interrupt id) (.unknownInterrupt id) m

/-- The machine with its pointer beyond an instruction. -/
def beyond (m : Machine) (i : Instruction) : Machine := { m with ip := m.ip + i.encodedLength }

/-- All that a step can do. -/
inductive Transition (code : List UInt8) (m : Machine) : Machine → Status → Prop
  | stays (h : code.length ≤ m.ip) : Transition code m m .halted
  | garbled {e : DecodeError} (hinside : m.ip < code.length) (h : decode code m.ip = .error e) :
      Transition code m m (.faulted ⟨m.ip, .decode e⟩)
  | refused {i : Instruction} {cause : FaultCause} {m' : Machine}
      (hdecode : decode code m.ip = .ok i) (h : Refuses code.length (m.beyond i) i cause m') :
      Transition code m m' (.faulted ⟨m.ip, cause⟩)
  | performed {i : Instruction} {m' : Machine} {status : Status}
      (hdecode : decode code m.ip = .ok i) (h : Performs code.length (m.beyond i) i m')
      (hstatus : status = if code.length ≤ m'.ip then .halted else .running) :
      Transition code m m' status

variable {code : List UInt8} {size : Nat} {m m' : Machine} {i : Instruction}

theorem Performs.execute_eq (h : Performs size m i m') : execute size m i = (m', none) := by
  cases h with
  | jump h | call h => exact if_pos h
  | ret h => simp only [execute, h]
  | arith h => simp only [execute, arithmetic, h]
  | push => rfl
  | pop h | set h => simp only [execute, takeOperand, h]
  | get h | unset h => simp only [execute, h]
  | print hid h => simp only [execute, takeOperand, hid, h]

theorem Refuses.execute_eq {cause : FaultCause} (h : Refuses size m i cause m') :
    execute size m i = (m', some cause) := by
  cases h with
  | jump h | call h => exact if_neg (Nat.not_le.2 h)
  | ret h => simp only [execute, h]
  | arith h =>
      rw [execute, arithmetic]
      split
      · next lhs rhs rest hoperands =>
          rw [hoperands, List.length_cons, List.length_cons] at h
          exact absurd h (by omega)
      · rfl
  | pop h | set h => simp only [execute, takeOperand, h]
  | get h | unset h => simp only [execute, h]
  | print hid h => simp only [execute, takeOperand, hid, h]
  | interrupt h => simp only [execute, h]

theorem Performs.proper (h : Performs size m i m') (hproper : m.bindings.Proper) :
    m'.bindings.Proper := by
  cases h with
  | set h => exact hproper.push _ _
  | unset h => exact hproper.pop _
  | _ => exact hproper

theorem performs_or_refuses (size : Nat) (m : Machine) (i : Instruction) :
    (∃ m', Performs size m i m') ∨ ∃ cause m', Refuses size m i cause m' := by
  cases i with
  | jump address =>
      by_cases h : address.toNat ≤ size
      · exact .inl ⟨_, .jump h⟩
      · exact .inr ⟨_, _, .jump (Nat.lt_of_not_le h)⟩
  | call address =>
      by_cases h : address.toNat ≤ size
      · exact .inl ⟨_, .call h⟩
      · exact .inr ⟨_, _, .call (Nat.lt_of_not_le h)⟩
  | ret =>
      cases h : m.returns with
      | nil => exact .inr ⟨_, _, .ret h⟩
      | cons address rest => exact .inl ⟨_, .ret h⟩
  | arith op =>
      rcases h : m.operands with _ | ⟨lhs, _ | ⟨rhs, rest⟩⟩
      · exact .inr ⟨_, _, .arith (by simp [h])⟩
      · exact .inr ⟨_, _, .arith (by simp [h])⟩
      · exact .inl ⟨_, .arith h⟩
  | push value => exact .inl ⟨_, .push⟩
  | pop =>
      cases h : m.operands with
      | nil => exact .inr ⟨_, _, .pop h⟩
      | cons value rest => exact .inl ⟨_, .pop h⟩
  | set hash =>
      cases h : m.operands with
      | nil => exact .inr ⟨_, _, .set h⟩
      | cons value rest => exact .inl ⟨_, .set h⟩
  | get hash =>
      cases h : m.bindings.top? hash with
      | none => exact .inr ⟨_, _, .get h⟩
      | some value => exact .inl ⟨_, .get h⟩
  | unset hash =>
      cases h : m.bindings.stack? hash with
      | none => exact .inr ⟨_, _, .unset h⟩
      | some values => exact .inl ⟨_, .unset h⟩
  | interrupt id =>
      cases hid : Interrupt.ofId? id with
      | none => exact .inr ⟨_, _, .interrupt hid⟩
      | some interrupt =>
          cases interrupt
          cases h : m.operands with
          | nil => exact .inr ⟨_, _, .print hid h⟩
          | cons value rest => exact .inl ⟨_, .print hid h⟩

theorem Transition.step_eq {status : Status} (h : Transition code m m' status) :
    m.step code = (m', status) := by
  cases h with
  | stays h => exact step_of_end h
  | garbled hinside h => simp only [step, if_neg (Nat.not_le.2 hinside), h]
  | refused hdecode h =>
      have hinside := Instruction.lt_length_of_decode hdecode
      have hexecute := h.execute_eq
      unfold beyond at hexecute
      simp only [step, if_neg (Nat.not_le.2 hinside), hdecode, hexecute]
  | performed hdecode h hstatus =>
      rw [hstatus]
      exact Moves.step ⟨_, hdecode, h.execute_eq⟩

theorem exists_transition (code : List UInt8) (m : Machine) :
    ∃ m' status, Transition code m m' status := by
  by_cases hend : code.length ≤ m.ip
  · exact ⟨_, _, .stays hend⟩
  · cases hdecode : decode code m.ip with
    | error e => exact ⟨_, _, .garbled (Nat.lt_of_not_le hend) hdecode⟩
    | ok i =>
        obtain ⟨m', h⟩ | ⟨cause, m', h⟩ := performs_or_refuses code.length (m.beyond i) i
        · exact ⟨_, _, .performed hdecode h rfl⟩
        · exact ⟨_, _, .refused hdecode h⟩

theorem step_eq_iff {status : Status} :
    m.step code = (m', status) ↔ Transition code m m' status := by
  refine ⟨fun h => ?_, Transition.step_eq⟩
  obtain ⟨m₁, status₁, htransition⟩ := exists_transition code m
  cases h.symm.trans htransition.step_eq
  exact htransition

theorem faulted_iff {cause : FaultCause} (hdecode : decode code m.ip = .ok i) :
    (m.step code).2 = .faulted ⟨m.ip, cause⟩ ↔
      ∃ m', Refuses code.length (m.beyond i) i cause m' := by
  obtain ⟨m', h⟩ | ⟨cause', m', h⟩ := performs_or_refuses code.length (m.beyond i) i
  · rw [(Transition.performed hdecode h rfl).step_eq]
    constructor
    · intro hfault
      dsimp only at hfault
      split at hfault <;> cases hfault
    · rintro ⟨m₁, hrefuses⟩
      cases h.execute_eq.symm.trans hrefuses.execute_eq
  · rw [(Transition.refused hdecode h).step_eq]
    constructor
    · intro hfault
      cases hfault
      exact ⟨m', h⟩
    · rintro ⟨m₁, hrefuses⟩
      cases h.execute_eq.symm.trans hrefuses.execute_eq
      rfl

/-- An instruction that is refused has done nothing yet, but for arithmetic, which is left without
operands. -/
theorem Refuses.leaves {cause : FaultCause} (h : Refuses size m i cause m') :
    m'.ip = m.ip ∧ m'.printed = m.printed ∧ m'.returns = m.returns ∧ m'.bindings = m.bindings ∧
      (m'.operands = m.operands ∨
        ∃ op, i = .arith op ∧ m.operands.length = 1 ∧ m'.operands = []) := by
  cases h with
  | @arith op h =>
      refine ⟨rfl, rfl, rfl, rfl, ?_⟩
      rcases hoperands : m.operands with _ | ⟨value, rest⟩
      · exact .inl rfl
      · rw [hoperands, List.length_cons] at h
        exact .inr ⟨op, rfl, by rw [List.length_cons]; omega, rfl⟩
  | _ => exact ⟨rfl, rfl, rfl, rfl, .inl rfl⟩

theorem Refuses.cause_ne_decode {cause : FaultCause} (h : Refuses size m i cause m')
    (e : DecodeError) : cause ≠ .decode e := by
  cases h <;> exact nofun

theorem Refuses.operands_of_arith {op : BinaryOp} {cause : FaultCause}
    (h : Refuses size m (.arith op) cause m') : m'.operands = [] := by
  cases h
  rfl

/-- A step that faults tells where the pointer was, prints nothing and leaves the return addresses
and the bindings. Bytes that are no instruction leave the machine as it is. An instruction that is
refused has the pointer past it and leaves the operands, unless it is arithmetic with one operand,
which it takes. -/
theorem step_fault_leaves {fault : Fault} (h : m.step code = (m', .faulted fault)) :
    fault.offset = m.ip ∧ m'.printed = m.printed ∧ m'.returns = m.returns ∧
      m'.bindings = m.bindings ∧
      ((∃ e, fault.cause = .decode e ∧ decode code m.ip = .error e ∧ m' = m) ∨
        ∃ i, (∀ e, fault.cause ≠ .decode e) ∧ decode code m.ip = .ok i ∧
          m'.ip = m.ip + i.encodedLength ∧
          ((∃ op, i = .arith op) ∧ m.operands.length = 1 → m'.operands = []) ∧
          (¬ ((∃ op, i = .arith op) ∧ m.operands.length = 1) → m'.operands = m.operands)) := by
  cases step_eq_iff.1 h with
  | garbled _ hdecode => exact ⟨rfl, rfl, rfl, rfl, .inl ⟨_, rfl, hdecode, rfl⟩⟩
  | @refused i cause _ hdecode hrefuses =>
      obtain ⟨hip, hprinted, hreturns, hbindings, hoperands⟩ := hrefuses.leaves
      have hcause := hrefuses.cause_ne_decode
      refine ⟨rfl, hprinted, hreturns, hbindings, .inr ⟨i, hcause, hdecode, hip, ?_, ?_⟩⟩
      · rintro ⟨⟨op, rfl⟩, -⟩
        exact hrefuses.operands_of_arith
      · intro hnot
        rcases hoperands with hsame | ⟨op, harith, hlone, -⟩
        · exact hsame
        · exact absurd ⟨⟨op, harith⟩, hlone⟩ hnot
  | performed _ _ hstatus => split at hstatus <;> cases hstatus

/-- Code that adds what it has pushed to nothing. -/
def loneAddition : List UInt8 :=
  Instruction.encode (.push .zero) ++ Instruction.encode (.arith .add)

theorem lone_operand_is_lost : ∃ m', (after loneAddition 1 initial).step loneAddition =
      (m', .faulted ⟨9, .emptyOperandStack⟩) ∧
    (after loneAddition 1 initial).operands = [.zero] ∧ m'.operands = [] ∧ m'.ip = 10 ∧
    m'.printed = #[] ∧ m'.returns = [] ∧ m'.bindings = ∅ := by
  have hstatus : ((after loneAddition 1 initial).step loneAddition).2 =
      .faulted ⟨9, .emptyOperandStack⟩ := by decide +kernel
  have hstep : (after loneAddition 1 initial).step loneAddition = (_, _) := Prod.ext rfl hstatus
  obtain ⟨-, hprinted, hreturns, hbindings, ⟨e, he, -⟩ | ⟨i, -, hdecode, hip, hlone, -⟩⟩ :=
    step_fault_leaves hstep
  · cases he
  · obtain rfl : i = .arith .add := Except.ok.inj (hdecode.symm.trans rfl)
    exact ⟨_, hstep, rfl, hlone ⟨⟨.add, rfl⟩, rfl⟩, hip, hprinted, hreturns, hbindings⟩

end StackCalc.Machine
