import StackCalc.Machine.Bindings
import StackCalc.Machine.Fault

/-!
# The stack machine

The machine holds an instruction pointer, a stack of operands, a stack of return addresses and the
bindings of variables, which it knows by the hash of their name. A step decodes one instruction,
moves the pointer past it and then executes it; a fault leaves the machine as far as the
instruction got. At the end of the code the machine halts.
-/

namespace StackCalc

/-- Both stacks have their top first; what was printed is in order. -/
structure Machine where
  ip : Nat
  operands : List Number
  returns : List Nat
  bindings : Bindings UInt64 Number
  printed : Array Number

namespace Machine

def initial : Machine := ⟨0, [], [], ∅, #[]⟩

/-- Where a step or a run has ended. -/
inductive Status where
  | running
  | halted
  | faulted (fault : Fault)
deriving DecidableEq

variable (size : Nat) (m : Machine)

/-- A jump to the end of the code is allowed. -/
def jump (address : UInt32) (returns : List Nat) : Machine × Option FaultCause :=
  if address.toNat ≤ size then ({ m with ip := address.toNat, returns := returns }, none)
  else (m, some (.addressOutOfBounds address))

/-- The left operand is on top. One operand alone is taken before its partner is missed. -/
def arithmetic (op : BinaryOp) : Machine × Option FaultCause :=
  match m.operands with
  | lhs :: rhs :: rest => ({ m with operands := op.apply lhs rhs :: rest }, none)
  | _ => ({ m with operands := [] }, some .emptyOperandStack)

/-- Hands the top operand on, together with the machine without it. -/
def takeOperand (use : Machine → Number → Machine) : Machine × Option FaultCause :=
  match m.operands with
  | value :: rest => (use { m with operands := rest } value, none)
  | [] => (m, some .emptyOperandStack)

/-- Executes an instruction in code of a size, the pointer being past the instruction. -/
def execute : Instruction → Machine × Option FaultCause
  | .jump address => m.jump size address m.returns
  | .call address => m.jump size address (m.ip :: m.returns)
  | .ret =>
    match m.returns with
    | address :: rest => ({ m with ip := address, returns := rest }, none)
    | [] => (m, some .emptyReturnStack)
  | .arith op => m.arithmetic op
  | .push value => ({ m with operands := value :: m.operands }, none)
  | .pop => m.takeOperand fun m _ => m
  | .set hash => m.takeOperand fun m value => { m with bindings := m.bindings.push hash value }
  | .get hash =>
    match m.bindings.top? hash with
    | some value => ({ m with operands := value :: m.operands }, none)
    | none => (m, some (.unbound hash))
  | .unset hash =>
    match m.bindings.stack? hash with
    | some _ => ({ m with bindings := m.bindings.pop hash }, none)
    | none => (m, some (.unbound hash))
  | .interrupt id =>
    match Interrupt.ofId? id with
    | some .print => m.takeOperand fun m value => { m with printed := m.printed.push value }
    | none => (m, some (.unknownInterrupt id))

def step (code : List UInt8) : Machine × Status :=
  let size := code.length
  if size ≤ m.ip then (m, .halted)
  else
    match Instruction.decode code m.ip with
    | .error e => (m, .faulted ⟨m.ip, .decode e⟩)
    | .ok i =>
      match execute size { m with ip := m.ip + i.encodedLength } i with
      | (m', some cause) => (m', .faulted ⟨m.ip, cause⟩)
      | (m', none) => (m', if size ≤ m'.ip then .halted else .running)

/-- Steps until the machine halts or faults, at most `limit` times. -/
def run (code : List UInt8) : (limit : Nat) → Machine → Machine × Status
  | 0, m => (m, .running)
  | limit + 1, m =>
    match m.step code with
    | (m', .running) => run code limit m'
    | ended => ended

end Machine

end StackCalc
