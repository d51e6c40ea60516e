import Mathlib.Order.MinMax
import StackCalc.Proofs.Codec

/-!
# Decoding is exact

Decoding at an offset gives the one instruction whose encoding stands there. Where none stands, the
error says which of three reasons it is: the offset is not in the code, the byte there is no tag, or
the code ends inside the operand. An instruction that is written to a buffer goes behind what the
buffer holds already.
-/

namespace StackCalc

theorem Opcode.ofTag?_eq_none_iff {tag : UInt8} : ofTag? tag = none ↔ 12 < tag.toNat := by
  rw [ofTag?, List.getElem?_eq_none_iff]
  exact Nat.succ_le_iff

namespace Instruction

/-- Writes an instruction to the end of a buffer, its tag and then its operand at the width of the
operand's own type. -/
def appendTo (buffer : Array UInt8) (i : Instruction) : Array UInt8 :=
  let tagged := buffer.push i.opcode.tag
  match i with
  | .jump address | .call address => tagged ++ littleEndian 4 address.toNat
  | .push value => tagged ++ littleEndian 8 value.bits.toNat
  | .set hash | .get hash | .unset hash => tagged ++ littleEndian 8 hash.toNat
  | .interrupt id => tagged.push id
  | .ret | .arith _ | .pop => tagged

theorem toList_appendTo (buffer : Array UInt8) (i : Instruction) :
    (i.appendTo buffer).toList = buffer.toList ++ i.encode := by
  cases i <;> simp [appendTo, encode, operand, Operation.opcode, Opcode.operandWidth, littleEndian]

theorem size_appendTo (buffer : Array UInt8) (i : Instruction) :
    (i.appendTo buffer).size = buffer.size + i.encodedLength := by
  rw [← Array.length_toList, toList_appendTo, List.length_append, length_encode,
    Array.length_toList]

variable {code : List UInt8} {offset : Nat} {tag : UInt8} {result : Except DecodeError Instruction}

theorem decode_eq_ok_iff {i : Instruction} :
    decode code offset = .ok i ↔ i.encode <+: code.drop offset := by
  constructor
  · intro h
    exact ⟨_, (eq_encode_append_of_decodeFront h).symm⟩
  · rintro ⟨rest, hrest⟩
    rw [decode, ← hrest, decodeFront_encode]

/-- What decoding at an offset should come to, told by the bytes that are there. -/
inductive Reading (code : List UInt8) (offset : Nat) : Except DecodeError Instruction → Prop
  | outside (h : code.length ≤ offset) : Reading code offset (.error (.outOfRange offset))
  | noTag {tag : UInt8} (h : code[offset]? = some tag) (htag : 12 < tag.toNat) :
      Reading code offset (.error (.unknownOpcode tag))
  | short {opcode : Opcode} (h : code[offset]? = some opcode.tag)
      (hshort : code.length - offset - 1 < opcode.operandWidth) :
      Reading code offset
        (.error (.truncated opcode opcode.operandWidth (code.length - offset - 1)))
  | whole {i : Instruction} (h : i.encode <+: code.drop offset) : Reading code offset (.ok i)

theorem decode_of_le (h : code.length ≤ offset) :
    decode code offset = .error (.outOfRange offset) := by
  rw [decode, List.drop_of_length_le h, decodeFront]

theorem drop_of_getElem? (h : code[offset]? = some tag) :
    code.drop offset = tag :: code.drop (offset + 1) := by
  obtain ⟨hlt, rfl⟩ := List.getElem?_eq_some_iff.1 h
  exact List.drop_eq_getElem_cons hlt

theorem decode_of_noTag (h : code[offset]? = some tag) (htag : Opcode.ofTag? tag = none) :
    decode code offset = .error (.unknownOpcode tag) := by
  rw [decode, drop_of_getElem? h, decodeFront, htag]

/-- Where the byte is a tag, the bytes behind it decide. -/
theorem decode_of_tag {opcode : Opcode} (h : code[offset]? = some tag)
    (htag : Opcode.ofTag? tag = some opcode) : decode code offset =
      if opcode.operandWidth ≤ code.length - offset - 1 then
        .ok (opcode.instruction
          (ofLittleEndian ((code.drop (offset + 1)).take opcode.operandWidth)))
      else .error (.truncated opcode opcode.operandWidth (code.length - offset - 1)) := by
  have hlength : (code.drop (offset + 1)).length = code.length - offset - 1 := List.length_drop
  rw [decode, drop_of_getElem? h, decodeFront, htag]
  simp only [decodeBehindTag_eq, readOperand, List.length_take, hlength, min_eq_left_iff]
  split <;> rfl

theorem decode_eq_iff_reading : decode code offset = result ↔ Reading code offset result := by
  constructor
  · rintro rfl
    cases hfirst : code[offset]? with
    | none =>
        have hle := List.getElem?_eq_none_iff.1 hfirst
        rw [decode_of_le hle]
        exact .outside hle
    | some tag =>
        cases htag : Opcode.ofTag? tag with
        | none =>
            rw [decode_of_noTag hfirst htag]
            exact .noTag hfirst (Opcode.ofTag?_eq_none_iff.1 htag)
        | some opcode =>
            have hdecode := decode_of_tag hfirst htag
            by_cases hwhole : opcode.operandWidth ≤ code.length - offset - 1
            · rw [if_pos hwhole] at hdecode
              rw [hdecode]
              exact .whole (decode_eq_ok_iff.1 hdecode)
            · rw [if_neg hwhole] at hdecode
              rw [hdecode]
              exact .short (Opcode.tag_of_ofTag? htag ▸ hfirst) (Nat.not_le.1 hwhole)
  · intro h
    cases h with
    | outside hle => exact decode_of_le hle
    | noTag hfirst htag => exact decode_of_noTag hfirst (Opcode.ofTag?_eq_none_iff.2 htag)
    | short hfirst hshort =>
        rw [decode_of_tag hfirst (Opcode.ofTag?_tag _), if_neg (Nat.not_le.2 hshort)]
    | whole hprefix => exact decode_eq_ok_iff.2 hprefix

/-- Decoding gives an instruction where its encoding stands, and no other one stands there; it is
out of range from the end of the code on, meets an unknown opcode where the byte is above the last
tag, and is truncated where fewer bytes follow the tag than were asked for, which are as many as the
operand is wide. Writing an instruction adds as many bytes as its length says, which are its
encoding, and touches nothing in front of them. -/
theorem decode_exact (code : List UInt8) (offset : Nat) :
    (∀ i, decode code offset = .ok i ↔
      i.encode <+: code.drop offset ∧ ∀ j : Instruction, j.encode <+: code.drop offset → j = i) ∧
    (∀ n, decode code offset = .error (.outOfRange n) ↔ n = offset ∧ code.length ≤ offset) ∧
    (∀ tag, decode code offset = .error (.unknownOpcode tag) ↔
      code[offset]? = some tag ∧ 12 < tag.toNat) ∧
    (∀ opcode needed available,
      decode code offset = .error (.truncated opcode needed available) ↔
        code[offset]? = some opcode.tag ∧ needed = opcode.operandWidth ∧
          available = code.length - offset - 1 ∧ available < needed) ∧
    ∀ (i : Instruction) (buffer : Array UInt8),
      (i.appendTo buffer).toList = buffer.toList ++ i.encode ∧
        (i.appendTo buffer).size = buffer.size + i.encodedLength := by
  refine ⟨fun i => ⟨fun h => ⟨decode_eq_ok_iff.1 h, fun j hj => ?_⟩, fun h => ?_⟩,
    fun n => ?_, fun tag => ?_, fun opcode needed available => ?_,
    fun i buffer => ⟨i.toList_appendTo buffer, i.size_appendTo buffer⟩⟩
  · exact Except.ok.inj ((decode_eq_ok_iff.2 hj).symm.trans h)
  · exact decode_eq_ok_iff.2 h.1
  · rw [decode_eq_iff_reading]
    constructor
    · rintro ⟨⟩
      exact ⟨rfl, ‹_›⟩
    · rintro ⟨rfl, hle⟩
      exact .outside hle
  · rw [decode_eq_iff_reading]
    constructor
    · rintro ⟨⟩
      exact ⟨‹_›, ‹_›⟩
    · rintro ⟨hfirst, htag⟩
      exact .noTag hfirst htag
  · rw [decode_eq_iff_reading]
    constructor
    · rintro ⟨⟩
      exact ⟨‹_›, rfl, rfl, ‹_›⟩
    · rintro ⟨hfirst, rfl, rfl, hshort⟩
      exact .short hfirst hshort

end Instruction

end StackCalc
