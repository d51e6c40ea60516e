import StackCalc.Proofs.Decoding

/-!
# Instructions tile their code

The encodings of instructions, put one behind another, are read back as these instructions and in
no other way. Any other bytes are read as far as instructions tile them: what is read begins at the
first byte, leaves no gap, and ends with the code or with the error met where the tiles end. A
cursor that is asked for one instruction after another gives the same, and has an end.
-/

namespace StackCalc

/-- Instructions that lie one behind another, the first at an offset. -/
def startingAt : Nat → List Instruction → List (Nat × Instruction)
  | _, [] => []
  | offset, i :: is => (offset, i) :: startingAt (offset + i.encodedLength) is

theorem map_snd_startingAt (offset : Nat) (is : List Instruction) :
    (startingAt offset is).map Prod.snd = is := by
  induction is generalizing offset with
  | nil => rfl
  | cons i is ih => rw [startingAt, List.map_cons, ih]

theorem instructionsFrom_encode_append (offset : Nat) (i : Instruction) (rest : List UInt8) :
    instructionsFrom offset (i.encode ++ rest) =
      ((offset, i) :: (instructionsFrom (offset + i.encodedLength) rest).1,
        (instructionsFrom (offset + i.encodedLength) rest).2) := by
  have hdecode := Instruction.decodeFront_encode offset i rest
  have hdrop : (i.encode ++ rest).drop i.encodedLength = rest := by
    rw [← i.length_encode, List.drop_left]
  cases hbytes : i.encode ++ rest with
  | nil => cases hbytes
  | cons tag operand =>
      rw [hbytes] at hdecode hdrop
      rw [instructionsFrom, hdecode]
      simp only [hdrop]

theorem instructionsFrom_encodings (offset : Nat) (is : List Instruction) :
    instructionsFrom offset (is.flatMap Instruction.encode) = (startingAt offset is, none) := by
  induction is generalizing offset with
  | nil => rw [List.flatMap_nil, instructionsFrom, startingAt]
  | cons i is ih => rw [List.flatMap_cons, instructionsFrom_encode_append, ih, startingAt]

/-- What reading from an offset comes to: instructions tile the bytes up to their end, or up to
where none begins. -/
inductive Tiled (offset : Nat) (bytes : List UInt8) :
    List (Nat × Instruction) × Option DecodeError → Prop
  | whole (is : List Instruction) (h : bytes = is.flatMap Instruction.encode) :
      Tiled offset bytes (startingAt offset is, none)
  | upTo (is : List Instruction) (rest : List UInt8) (e : DecodeError)
      (h : bytes = is.flatMap Instruction.encode ++ rest) (hrest : rest ≠ [])
      (he : Instruction.decodeFront (offset + (is.flatMap Instruction.encode).length) rest =
        .error e) :
      Tiled offset bytes (startingAt offset is, some e)

theorem Tiled.cons {offset : Nat} {i : Instruction} {bytes : List UInt8}
    {read : List (Nat × Instruction) × Option DecodeError}
    (h : Tiled (offset + i.encodedLength) bytes read) :
    Tiled offset (i.encode ++ bytes) ((offset, i) :: read.1, read.2) := by
  cases h with
  | whole is hbytes => exact .whole (i :: is) (by rw [hbytes, List.flatMap_cons])
  | upTo is rest e hbytes hrest he =>
      refine .upTo (i :: is) rest e ?_ hrest ?_
      · rw [hbytes, List.flatMap_cons, List.append_assoc]
      · rwa [List.flatMap_cons, List.length_append, Instruction.length_encode, ← Nat.add_assoc]

theorem tiled_instructionsFrom (offset : Nat) (bytes : List UInt8) :
    Tiled offset bytes (instructionsFrom offset bytes) := by
  fun_induction instructionsFrom offset bytes with
  | case1 offset => exact .whole [] rfl
  | case2 offset tag rest e he =>
      exact .upTo [] (tag :: rest) e rfl (List.cons_ne_nil _ _) he
  | case3 offset tag rest i hi found failure? hread ih =>
      rw [hread] at ih
      rw [Instruction.eq_encode_append_of_decodeFront hi]
      exact ih.cons

/-- Where to read next, and whether reading has failed. -/
structure Cursor where
  offset : Nat
  failed : Bool

namespace Cursor

def start : Cursor := ⟨0, false⟩

/-- The next item and the cursor behind it. There is none at the end of the code or behind an
error. -/
def next? (code : List UInt8) (c : Cursor) :
    Option (Except DecodeError (Nat × Instruction) × Cursor) :=
  if c.failed ∨ code.length ≤ c.offset then none
  else
    match Instruction.decode code c.offset with
    | .ok i => some (.ok (c.offset, i), { c with offset := c.offset + i.encodedLength })
    | .error e => some (.error e, { c with failed := true })

/-- The items that come of asking again until there is none, but not more often than `limit`. -/
def items (code : List UInt8) : (limit : Nat) → Cursor →
    List (Except DecodeError (Nat × Instruction))
  | 0, _ => []
  | limit + 1, c =>
    match c.next? code with
    | none => []
    | some (item, c) => item :: items code limit c

variable {code : List UInt8} {offset : Nat}

theorem items_failed (limit : Nat) : items code limit ⟨offset, true⟩ = [] := by
  cases limit with
  | zero => rfl
  | succ limit => simp [items, next?]

/-- A cursor that may be asked once for each byte left gives what is read from there on. -/
theorem items_eq {limit : Nat} (hlimit : code.length ≤ offset + limit) :
    items code limit ⟨offset, false⟩ =
      (instructionsFrom offset (code.drop offset)).1.map .ok ++
        (instructionsFrom offset (code.drop offset)).2.toList.map .error := by
  induction limit generalizing offset with
  | zero =>
      have hend : code.length ≤ offset := hlimit
      rw [List.drop_of_length_le hend, instructionsFrom, items]
      rfl
  | succ limit ih =>
      rw [items, next?]
      by_cases hend : code.length ≤ offset
      · rw [if_pos (.inr hend), List.drop_of_length_le hend, instructionsFrom]
        rfl
      · rw [if_neg (by simp [hend])]
        cases hdecode : Instruction.decode code offset with
        | error e =>
            obtain ⟨tag, rest, hdrop⟩ := List.exists_cons_of_ne_nil
              (mt List.drop_eq_nil_iff.1 hend)
            rw [Instruction.decode, hdrop] at hdecode
            rw [hdrop, instructionsFrom, hdecode]
            simp [items_failed]
        | ok i =>
            have hpos := i.encodedLength_pos
            have hlater : code.length ≤ offset + i.encodedLength + limit := by omega
            rw [instructionsFrom_of_decode hdecode]
            exact congrArg _ (ih hlater)

end Cursor

theorem exists_tiles (code : List UInt8) :
    ∃ is rest, code = is.flatMap Instruction.encode ++ rest ∧
      (instructions code).1 = startingAt 0 is ∧
      (rest = [] ∧ (instructions code).2 = none ∨
        rest ≠ [] ∧ ∃ e, (instructions code).2 = some e ∧
          Instruction.decode code (is.flatMap Instruction.encode).length = .error e) := by
  have htiled := tiled_instructionsFrom 0 code
  unfold instructions
  cases hread : instructionsFrom 0 code with
  | mk found failure? =>
      rw [hread] at htiled
      cases htiled with
      | whole is hcode => exact ⟨is, [], by rw [hcode, List.append_nil], rfl, .inl ⟨rfl, rfl⟩⟩
      | upTo is rest e hcode hrest he =>
          refine ⟨is, rest, hcode, rfl, .inr ⟨hrest, e, rfl, ?_⟩⟩
          rw [Nat.zero_add] at he
          rw [Instruction.decode, hcode, List.drop_left, he]

/-- The encodings of instructions are read back as these, each at the sum of the lengths before it,
so no other instructions have the same bytes. Whatever the bytes are, they are read as instructions
that tile the beginning of them, up to the end or up to the error that decoding there gives; and a
cursor is through with them after as many items as there are bytes at most. -/
theorem instructions_tile :
    (∀ is : List Instruction,
      instructions (is.flatMap Instruction.encode) = (startingAt 0 is, none)) ∧
    Function.Injective (fun is : List Instruction => is.flatMap Instruction.encode) ∧
    ∀ code : List UInt8,
      (∃ is rest, code = is.flatMap Instruction.encode ++ rest ∧
        (instructions code).1 = startingAt 0 is ∧
        (rest = [] ∧ (instructions code).2 = none ∨
          rest ≠ [] ∧ ∃ e, (instructions code).2 = some e ∧
            Instruction.decode code (is.flatMap Instruction.encode).length = .error e)) ∧
      ∀ limit, code.length ≤ limit → Cursor.start.items code limit =
        (instructions code).1.map .ok ++ (instructions code).2.toList.map .error := by
  have hread : ∀ is : List Instruction,
      instructions (is.flatMap Instruction.encode) = (startingAt 0 is, none) :=
    instructionsFrom_encodings 0
  refine ⟨hread, fun is js hsame => ?_, fun code => ⟨exists_tiles code, fun limit hlimit => ?_⟩⟩
  · have hstarts := hread is
    dsimp only at hsame
    rw [hsame, hread, Prod.mk.injEq] at hstarts
    rw [← map_snd_startingAt 0 is, ← hstarts.1, map_snd_startingAt]
  · exact Cursor.items_eq (by rwa [Nat.zero_add])

end StackCalc
