import StackCalc.Operator
import StackCalc.Number.Shortest

/-!
# Operations of the stack machine

An operation is a kind and, for some kinds, one operand. What a jump target, a variable and an
interrupt are is left open: names in assembly, addresses and hashes and bytes in code.
-/

namespace StackCalc

inductive Opcode where
  | jump
  | call
  | ret
  | arith (op : BinaryOp)
  | push
  | pop
  | set
  | get
  | unset
  | interrupt
deriving DecidableEq

namespace Opcode

/-- Every kind, at the place of its tag. -/
def all : List Opcode :=
  [jump, call, ret, arith .add, arith .sub, arith .mul, arith .div, push, pop, set, get, unset,
    interrupt]

def tag : Opcode → UInt8
  | jump => 0
  | call => 1
  | ret => 2
  | arith .add => 3
  | arith .sub => 4
  | arith .mul => 5
  | arith .div => 6
  | push => 7
  | pop => 8
  | set => 9
  | get => 10
  | unset => 11
  | interrupt => 12

def ofTag? (tag : UInt8) : Option Opcode := all[tag.toNat]?

def mnemonic : Opcode → String
  | jump => "jmp"
  | call => "call"
  | ret => "ret"
  | arith op => op.mnemonic
  | push => "push"
  | pop => "pop"
  | set => "set"
  | get => "get"
  | unset => "unset"
  | interrupt => "int"

def ofMnemonic? (name : String) : Option Opcode := all.find? (·.mnemonic = name)

/-- The number of bytes that the operand takes in code. -/
def operandWidth : Opcode → Nat
  | jump | call => 4
  | push | set | get | unset => 8
  | interrupt => 1
  | ret | arith _ | pop => 0

def encodedLength (opcode : Opcode) : Nat := 1 + opcode.operandWidth

theorem encodedLength_pos (opcode : Opcode) : 0 < opcode.encodedLength := by
  unfold encodedLength; omega

theorem ofTag?_tag (opcode : Opcode) : ofTag? opcode.tag = some opcode := by
  cases opcode with
  | arith op => cases op <;> rfl
  | _ => rfl

end Opcode

/-- An operation with targets `τ`, variables `ν` and interrupts `ι`. -/
inductive Operation (τ ν ι : Type) where
  | jump (target : τ)
  | call (target : τ)
  | ret
  | arith (op : BinaryOp)
  | push (value : Number)
  | pop
  | set (name : ν)
  | get (name : ν)
  | unset (name : ν)
  | interrupt (id : ι)
deriving DecidableEq

namespace Operation

variable {τ ν ι : Type}

def opcode : Operation τ ν ι → Opcode
  | jump _ => .jump
  | call _ => .call
  | ret => .ret
  | arith op => .arith op
  | push _ => .push
  | pop => .pop
  | set _ => .set
  | get _ => .get
  | unset _ => .unset
  | interrupt _ => .interrupt

def encodedLength (operation : Operation τ ν ι) : Nat := operation.opcode.encodedLength

/-- The name that an operation is about, if it is about a variable. -/
def name? : Operation τ ν ι → Option ν
  | set name | get name | unset name => some name
  | jump _ | call _ | ret | arith _ | push _ | pop | interrupt _ => none

/-- The operand as text, if there is one. -/
def operandText? (target : τ → String) (name : ν → String) (id : ι → String) :
    Operation τ ν ι → Option String
  | jump t | call t => some (target t)
  | push value => some value.text
  | set x | get x | unset x => some (name x)
  | interrupt i => some (id i)
  | ret | arith _ | pop => none

/-- The mnemonic, then a space and the operand. -/
def textWith (target : τ → String) (name : ν → String) (id : ι → String)
    (operation : Operation τ ν ι) : String :=
  match operation.operandText? target name id with
  | some operand => operation.opcode.mnemonic ++ " " ++ operand
  | none => operation.opcode.mnemonic

end Operation

end StackCalc
