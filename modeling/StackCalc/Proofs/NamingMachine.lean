import StackCalc.Proofs.Outcome
import StackCalc.Proofs.Run

/-!
# A machine with names

A machine may have a table of names, to show a variable by its name where it complains of one; a
variable that the table does not have is shown by its hash. The table has no other part in what the
machine does: with any names it goes step by step as without.
-/

namespace StackCalc

/-- What a machine complains of. A variable is told by what is shown for it. -/
inductive Complaint where
  | decode (e : DecodeError)
  | emptyOperandStack
  | emptyReturnStack
  | variableNotFound (shown : String)
  | unknownInterrupt (id : UInt8)
  | addressOutOfBounds (address : UInt32)
deriving DecidableEq

def FaultCause.shownBy (names : Names) : FaultCause → Complaint
  | decode e => .decode e
  | emptyOperandStack => .emptyOperandStack
  | emptyReturnStack => .emptyReturnStack
  | unbound hash => .variableNotFound (names.describe hash)
  | unknownInterrupt id => .unknownInterrupt id
  | addressOutOfBounds address => .addressOutOfBounds address

/-- How steps of a machine with names end. -/
inductive Ending where
  | running
  | halted
  | faulted (offset : Nat) (complaint : Complaint)
deriving DecidableEq

def Machine.Status.shownBy (names : Names) : Machine.Status → Ending
  | running => .running
  | halted => .halted
  | faulted fault => .faulted fault.offset (fault.cause.shownBy names)

/-- A machine with the names that it shows variables by. -/
structure NamingMachine extends Machine where
  names : Names

namespace NamingMachine

/-- What an instruction does to the machine, up to where it fails. -/
abbrev Act := EStateM Complaint NamingMachine

def start (names : List String) : NamingMachine := ⟨.initial, .ofList nameHash names⟩

def push (value : Number) : Act Unit :=
  modify fun m => { m with operands := value :: m.operands }

def pop : Act Number := do
  match (← get).operands with
  | value :: rest =>
    modify fun m => { m with operands := rest }
    return value
  | [] => throw .emptyOperandStack

def jump (size : Nat) (address : UInt32) : Act Unit := do
  if size < address.toNat then throw (.addressOutOfBounds address)
  modify fun m => { m with ip := address.toNat }

def arithmetic (op : BinaryOp) : Act Unit := do
  let lhs ← pop
  let rhs ← pop
  push (op.apply lhs rhs)

def missing (hash : UInt64) : Act Unit := do
  throw (.variableNotFound ((← get).names.describe hash))

def execute (size : Nat) : Instruction → Act Unit
  | .jump address => jump size address
  | .call address => do
    let resume := (← get).ip
    jump size address
    modify fun m => { m with returns := resume :: m.returns }
  | .ret => do
    match (← get).returns with
    | address :: rest => modify fun m => { m with ip := address, returns := rest }
    | [] => throw .emptyReturnStack
  | .arith op => arithmetic op
  | .push value => push value
  | .pop => discard pop
  | .set hash => do
    let value ← pop
    modify fun m => { m with bindings := m.bindings.push hash value }
  | .get hash => do
    match (← get).bindings.top? hash with
    | some value => push value
    | none => missing hash
  | .unset hash => do
    match (← get).bindings.stack? hash with
    | some _ => modify fun m => { m with bindings := m.bindings.pop hash }
    | none => missing hash
  | .interrupt id =>
    match Interrupt.ofId? id with
    | some .print => do
      let value ← pop
      modify fun m => { m with printed := m.printed.push value }
    | none => throw (.unknownInterrupt id)

def step (code : List UInt8) (m : NamingMachine) : NamingMachine × Ending :=
  if code.length ≤ m.ip then (m, .halted)
  else
    match Instruction.decode code m.ip with
    | .error e => (m, .faulted m.ip (.decode e))
    | .ok i =>
      match execute code.length i { m with ip := m.ip + i.encodedLength } with
      | .error complaint m' => (m', .faulted m.ip complaint)
      | .ok () m' => (m', if code.length ≤ m'.ip then .halted else .running)

def run (code : List UInt8) : (limit : Nat) → NamingMachine → NamingMachine × Ending
  | 0, m => (m, .running)
  | limit + 1, m =>
    match m.step code with
    | (m', .running) => run code limit m'
    | ended => ended

def after (code : List UInt8) : Nat → NamingMachine → NamingMachine
  | 0, m => m
  | n + 1, m => after code n (m.step code).1

section Lockstep

variable (code : List UInt8) (m : Machine) (names : Names)

/-- What an instruction leaves, told by a machine with names. -/
def told : Machine × Option FaultCause → EStateM.Result Complaint NamingMachine Unit
  | (m, none) => .ok () ⟨m, names⟩
  | (m, some cause) => .error (cause.shownBy names) ⟨m, names⟩

theorem jump_eq (size : Nat) (address : UInt32) :
    jump size address ⟨m, names⟩ = told names (m.jump size address m.returns) := by
  unfold Machine.jump
  by_cases h : address.toNat ≤ size
  · rw [if_pos h, jump, if_neg (Nat.not_lt.2 h)]
    rfl
  · rw [if_neg h, jump, if_pos (Nat.lt_of_not_le h)]
    rfl

theorem pop_eq (use : Number → Machine → Machine) :
    (pop >>= fun value => modify fun m => ⟨use value m.toMachine, m.names⟩) ⟨m, names⟩ =
      told names (m.takeOperand fun m value => use value m) := by
  obtain ⟨ip, operands, returns, bindings, printed⟩ := m
  cases operands with
  | nil => rfl
  | cons value rest => rfl

theorem execute_eq (size : Nat) (i : Instruction) :
    execute size i ⟨m, names⟩ = told names (m.execute size i) := by
  cases i with
  | jump address => exact jump_eq m names size address
  | call address =>
      rw [execute, Machine.execute, Machine.jump, run_get_bind]
      by_cases h : address.toNat ≤ size
      · rw [if_pos h, jump, if_neg (Nat.not_lt.2 h)]
        rfl
      · rw [if_neg h, jump, if_pos (Nat.lt_of_not_le h)]
        rfl
  | ret =>
      rw [execute, Machine.execute, run_get_bind]
      dsimp only
      cases m.returns with
      | nil => rfl
      | cons address rest => rfl
  | arith op =>
      obtain ⟨ip, operands, returns, bindings, printed⟩ := m
      rcases operands with _ | ⟨lhs, _ | ⟨rhs, rest⟩⟩ <;> rfl
  | push value => rfl
  | pop => exact pop_eq m names fun _ m => m
  | set hash =>
      exact pop_eq m names fun value m => { m with bindings := m.bindings.push hash value }
  | get hash =>
      rw [execute, Machine.execute, run_get_bind]
      dsimp only
      cases m.bindings.top? hash with
      | none => rfl
      | some value => rfl
  | unset hash =>
      rw [execute, Machine.execute, run_get_bind]
      dsimp only
      cases m.bindings.stack? hash with
      | none => rfl
      | some values => rfl
  | interrupt id =>
      rw [execute, Machine.execute]
      cases Interrupt.ofId? id with
      | none => rfl
      | some interrupt =>
          cases interrupt
          exact pop_eq m names fun value m => { m with printed := m.printed.push value }

theorem step_eq : step code ⟨m, names⟩ =
    (⟨(m.step code).1, names⟩, (m.step code).2.shownBy names) := by
  rw [step, Machine.step]
  by_cases hend : code.length ≤ m.ip
  · rw [if_pos hend, if_pos hend]
    rfl
  · rw [if_neg hend, if_neg hend]
    dsimp only
    cases Instruction.decode code m.ip with
    | error e => rfl
    | ok i =>
        dsimp only
        rw [execute_eq]
        generalize Machine.execute code.length { m with ip := m.ip + i.encodedLength } i = result
        obtain ⟨m', _ | cause⟩ := result
        · dsimp only [told]
          by_cases hpast : code.length ≤ m'.ip
          · rw [if_pos hpast, if_pos hpast]
            rfl
          · rw [if_neg hpast, if_neg hpast]
            rfl
        · rfl

theorem run_eq (limit : Nat) : run code limit ⟨m, names⟩ =
    (⟨(m.run code limit).1, names⟩, (m.run code limit).2.shownBy names) := by
  induction limit generalizing m with
  | zero => rfl
  | succ limit ih =>
      rw [run, step_eq, Machine.run]
      obtain ⟨m', status⟩ := m.step code
      cases status with
      | running => exact ih m'
      | halted => rfl
      | faulted fault => rfl

theorem after_eq (n : Nat) : after code n ⟨m, names⟩ = ⟨m.after code n, names⟩ := by
  induction n generalizing m with
  | zero => rfl
  | succ n ih => rw [after, step_eq, ih, Machine.after]

end Lockstep

end NamingMachine

end StackCalc
