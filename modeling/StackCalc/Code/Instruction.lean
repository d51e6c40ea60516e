import StackCalc.Code.Operation
import StackCalc.Text.Format

/-!
# Instructions and their encoding

Code is a list of bytes. An instruction is the tag of its kind, then its operand, lowest byte
first, of a width that the kind fixes. Decoding at an offset gives the instruction whose encoding
begins there, or says why there is none. Code knows a name by the 64-bit FNV-1a hash of it.
-/

namespace StackCalc

namespace NameHash

def start : UInt64 := 0xcbf29ce484222325

def prime : UInt64 := 0x100000001b3

/-- Takes one more byte into the hash. -/
def absorb (hash : UInt64) (byte : UInt8) : UInt64 := (hash ^^^ byte.toUInt64) * prime

def ofBytes (bytes : List UInt8) : UInt64 := bytes.foldl absorb start

end NameHash

def nameHash (name : String) : UInt64 :=
  NameHash.ofBytes (name.toList.flatMap String.utf8EncodeChar)

/-- An operation as the machine sees it: addresses, hashes of names, interrupt bytes. -/
abbrev Instruction := Operation UInt32 UInt64 UInt8

inductive DecodeError where
  | unknownOpcode (tag : UInt8)
  | outOfRange (offset : Nat)
  | truncated (opcode : Opcode) (needed available : Nat)
deriving DecidableEq

def DecodeError.message : DecodeError → String
  | unknownOpcode tag => s!"unknown opcode 0x{Text.hex 2 tag.toNat}"
  | outOfRange offset => s!"no instruction at offset {Text.address offset}"
  | truncated opcode needed available =>
    s!"truncated bytecode: '{opcode.mnemonic}' needs {needed} operand byte(s), {available} left"

/-- The lowest `width` bytes, the lowest first. -/
def littleEndian : (width : Nat) → Nat → List UInt8
  | 0, _ => []
  | width + 1, n => UInt8.ofNat n :: littleEndian width (n / 256)

def ofLittleEndian : List UInt8 → Nat
  | [] => 0
  | byte :: bytes => byte.toNat + 256 * ofLittleEndian bytes

@[simp] theorem length_littleEndian (width n : Nat) : (littleEndian width n).length = width := by
  induction width generalizing n with
  | zero => rfl
  | succ width ih => simp [littleEndian, ih]

/-- The instruction of a kind, its operand given as a number. -/
def Opcode.instruction (operand : Nat) : Opcode → Instruction
  | jump => .jump (UInt32.ofNat operand)
  | call => .call (UInt32.ofNat operand)
  | ret => .ret
  | arith op => .arith op
  | push => .push ⟨UInt64.ofNat operand⟩
  | pop => .pop
  | set => .set (UInt64.ofNat operand)
  | get => .get (UInt64.ofNat operand)
  | unset => .unset (UInt64.ofNat operand)
  | interrupt => .interrupt (UInt8.ofNat operand)

namespace Instruction

/-- The operand as a number. -/
def operand : Instruction → Nat
  | .jump address | .call address => address.toNat
  | .push value => value.bits.toNat
  | .set hash | .get hash | .unset hash => hash.toNat
  | .interrupt id => id.toNat
  | .ret | .arith _ | .pop => 0

def encode (i : Instruction) : List UInt8 :=
  i.opcode.tag :: littleEndian i.opcode.operandWidth i.operand

/-- Reads an operand of so many bytes as a number. -/
def readOperand (opcode : Opcode) (needed : Nat) (bytes : List UInt8) : Except DecodeError Nat :=
  let operand := bytes.take needed
  if operand.length = needed then .ok (ofLittleEndian operand)
  else .error (.truncated opcode needed bytes.length)

/-- Reads the instruction whose tag has been read, its operand at the width of the operand's own
type. -/
def decodeBehindTag (opcode : Opcode) (bytes : List UInt8) : Except DecodeError Instruction :=
  match opcode with
  | .jump | .call => return opcode.instruction (← readOperand opcode 4 bytes)
  | .push | .set | .get | .unset => return opcode.instruction (← readOperand opcode 8 bytes)
  | .interrupt => return opcode.instruction (← readOperand opcode 1 bytes)
  | .ret | .arith _ | .pop => return opcode.instruction 0

/-- Reads the instruction that begins the list, found at an offset of the whole code. -/
def decodeFront (offset : Nat) : List UInt8 → Except DecodeError Instruction
  | [] => .error (.outOfRange offset)
  | tag :: rest =>
    match Opcode.ofTag? tag with
    | none => .error (.unknownOpcode tag)
    | some opcode => decodeBehindTag opcode rest

def decode (code : List UInt8) (offset : Nat) : Except DecodeError Instruction :=
  decodeFront offset (code.drop offset)

def text (i : Instruction) : String :=
  i.textWith (fun address => Text.address address.toNat) Text.hashName
    (fun id => toString id.toNat)

@[simp] theorem length_encode (i : Instruction) : i.encode.length = i.encodedLength := by
  simp [encode, Operation.encodedLength, Opcode.encodedLength, Nat.add_comm]

theorem encodedLength_pos (i : Instruction) : 0 < i.encodedLength := i.opcode.encodedLength_pos

end Instruction

/-- The instructions from an offset on, each with its offset, and the error that ends them, if
one does. -/
def instructionsFrom (offset : Nat) (code : List UInt8) :
    List (Nat × Instruction) × Option DecodeError :=
  match code with
  | [] => ([], none)
  | tag :: rest =>
    match Instruction.decodeFront offset (tag :: rest) with
    | .error e => ([], some e)
    | .ok i =>
      let (found, failure?) := instructionsFrom (offset + i.encodedLength)
        ((tag :: rest).drop i.encodedLength)
      ((offset, i) :: found, failure?)
termination_by code.length
decreasing_by
  have := i.encodedLength_pos
  simp only [List.length_drop, List.length_cons]
  omega

def instructions (code : List UInt8) : List (Nat × Instruction) × Option DecodeError :=
  instructionsFrom 0 code

end StackCalc
