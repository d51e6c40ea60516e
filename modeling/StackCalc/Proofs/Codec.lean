import Mathlib.Algebra.Group.Nat.Units
import StackCalc.Code.Instruction
import StackCalc.Proofs.Outcome

/-!
# Decoding what was encoded

The encoding of an instruction is read back at the place where it stands, whatever is behind it,
and where an instruction is read its encoding stands.
-/

namespace StackCalc

theorem ofLittleEndian_littleEndian (width n : Nat) :
    ofLittleEndian (littleEndian width n) = n % 2 ^ (8 * width) := by
  induction width generalizing n with
  | zero => simp [littleEndian, ofLittleEndian, Nat.mod_one]
  | succ width ih =>
      have hpow : 2 ^ (8 * (width + 1)) = 256 * 2 ^ (8 * width) := by
        rw [Nat.mul_succ, Nat.pow_add, Nat.mul_comm]
      rw [littleEndian, ofLittleEndian, ih, hpow, Nat.mod_mul]
      simp

theorem littleEndian_ofLittleEndian (bytes : List UInt8) :
    littleEndian bytes.length (ofLittleEndian bytes) = bytes := by
  induction bytes with
  | nil => rfl
  | cons byte bytes ih =>
      have hbyte := byte.toNat_lt
      have hlow : UInt8.ofNat (byte.toNat + 256 * ofLittleEndian bytes) = byte := by
        rw [← UInt8.toNat_inj, UInt8.toNat_ofNat']
        omega
      have hhigh : (byte.toNat + 256 * ofLittleEndian bytes) / 256 = ofLittleEndian bytes := by
        omega
      rw [List.length_cons, littleEndian, ofLittleEndian, hlow, hhigh, ih]

theorem ofLittleEndian_lt (bytes : List UInt8) :
    ofLittleEndian bytes < 2 ^ (8 * bytes.length) := by
  rw [← Nat.mod_eq_iff_lt (Nat.ne_of_gt (Nat.two_pow_pos _)), ← ofLittleEndian_littleEndian,
    littleEndian_ofLittleEndian]

namespace Opcode

theorem tag_of_ofTag? {tag : UInt8} {opcode : Opcode} (h : ofTag? tag = some opcode) :
    opcode.tag = tag := by
  have hlt : tag.toNat < all.length := by
    by_contra hge
    rw [ofTag?, List.getElem?_eq_none (Nat.le_of_not_lt hge)] at h
    cases h
  have htags : ∀ n < all.length, (all[n]?.map Opcode.tag) = some (UInt8.ofNat n) := by decide
  have htag := htags tag.toNat hlt
  rw [ofTag?] at h
  rw [h] at htag
  simpa using htag

theorem opcode_instruction (opcode : Opcode) (operand : Nat) :
    (opcode.instruction operand).opcode = opcode := by
  cases opcode <;> rfl

theorem operand_instruction {opcode : Opcode} {operand : Nat}
    (h : operand < 2 ^ (8 * opcode.operandWidth)) :
    (opcode.instruction operand).operand = operand := by
  cases opcode with
  | jump | call => exact UInt32.toNat_ofNat_of_lt' h
  | push | set | get | unset => exact UInt64.toNat_ofNat_of_lt' h
  | interrupt => exact UInt8.toNat_ofNat_of_lt' h
  | ret | arith op | pop => exact (Nat.lt_one_iff.1 h).symm

end Opcode

namespace Instruction

/-- The width of the operand of a kind is enough for its values. -/
theorem operand_lt (i : Instruction) : i.operand < 2 ^ (8 * i.opcode.operandWidth) := by
  cases i with
  | jump address | call address => exact address.toNat_lt
  | push value => exact value.bits.toNat_lt
  | set hash | get hash | unset hash => exact hash.toNat_lt
  | interrupt id => exact id.toNat_lt
  | ret | arith op | pop => exact Nat.one_pos

theorem instruction_operand (i : Instruction) : i.opcode.instruction i.operand = i := by
  cases i <;> simp [Operation.opcode, Opcode.instruction, operand]

/-- Each kind asks for as many bytes as its operand is wide. -/
theorem decodeBehindTag_eq (opcode : Opcode) (bytes : List UInt8) :
    decodeBehindTag opcode bytes =
      readOperand opcode opcode.operandWidth bytes >>= fun operand =>
        .ok (opcode.instruction operand) := by
  cases opcode <;> rfl

theorem readOperand_append (opcode : Opcode) (operand rest : List UInt8) :
    readOperand opcode operand.length (operand ++ rest) = .ok (ofLittleEndian operand) := by
  simp only [readOperand, List.take_left, if_pos]

theorem decodeFront_encode (offset : Nat) (i : Instruction) (rest : List UInt8) :
    decodeFront offset (i.encode ++ rest) = .ok i := by
  have hread := readOperand_append i.opcode (littleEndian i.opcode.operandWidth i.operand) rest
  rw [length_littleEndian, ofLittleEndian_littleEndian, Nat.mod_eq_of_lt i.operand_lt] at hread
  rw [encode, List.cons_append, decodeFront, Opcode.ofTag?_tag]
  simp only [decodeBehindTag_eq, hread]
  exact congrArg Except.ok i.instruction_operand

theorem decode_append_encode (before rest : List UInt8) (i : Instruction) :
    decode (before ++ (i.encode ++ rest)) before.length = .ok i := by
  rw [decode, List.drop_left, decodeFront_encode]

/-- An operand that is read stands at the front of the bytes. -/
theorem readOperand_ok {opcode : Opcode} {needed operand : Nat} {bytes : List UInt8}
    (h : readOperand opcode needed bytes = .ok operand) :
    bytes = littleEndian needed operand ++ bytes.drop needed ∧ operand < 2 ^ (8 * needed) := by
  simp only [readOperand] at h
  split at h
  · next hwidth =>
      cases h
      have hlt := ofLittleEndian_lt (bytes.take needed)
      have hbytes := littleEndian_ofLittleEndian (bytes.take needed)
      rw [hwidth] at hlt hbytes
      exact ⟨by rw [hbytes, List.take_append_drop], hlt⟩
  · cases h

/-- The bytes of an instruction that is read are its encoding. -/
theorem eq_encode_append_of_decodeFront {offset : Nat} {bytes : List UInt8} {i : Instruction}
    (h : decodeFront offset bytes = .ok i) :
    bytes = i.encode ++ bytes.drop i.encodedLength := by
  cases bytes with
  | nil => cases h
  | cons tag rest =>
      rw [decodeFront] at h
      cases htag : Opcode.ofTag? tag with
      | none =>
          rw [htag] at h
          cases h
      | some opcode =>
          simp only [htag, decodeBehindTag_eq] at h
          obtain ⟨operand, hread, h⟩ := bind_eq_ok_iff.1 h
          cases h
          obtain ⟨hrest, hlt⟩ := readOperand_ok hread
          rw [encode, Operation.encodedLength, opcode.opcode_instruction,
            Opcode.operand_instruction hlt, Opcode.tag_of_ofTag? htag, Opcode.encodedLength,
            Nat.add_comm 1, List.drop_succ_cons, List.cons_append, ← hrest]

/-- Code is decoded as before when more is behind it. -/
theorem decode_append {code : List UInt8} {offset : Nat} {i : Instruction}
    (h : decode code offset = .ok i) (more : List UInt8) :
    decode (code ++ more) offset = .ok i := by
  rw [decode] at h ⊢
  have hle : offset ≤ code.length := by
    by_contra hgt
    rw [List.drop_of_length_le (Nat.le_of_not_le hgt)] at h
    cases h
  rw [List.drop_append_of_le_length hle, eq_encode_append_of_decodeFront h, List.append_assoc,
    decodeFront_encode]

/-- Whatever is decoded begins inside the code. -/
theorem lt_length_of_decode {code : List UInt8} {offset : Nat} {i : Instruction}
    (h : decode code offset = .ok i) : offset < code.length := by
  rw [decode] at h
  cases hd : code.drop offset with
  | nil => simp [hd, decodeFront] at h
  | cons tag rest =>
      have := congrArg List.length hd
      simp only [List.length_drop, List.length_cons] at this
      omega

end Instruction

end StackCalc
