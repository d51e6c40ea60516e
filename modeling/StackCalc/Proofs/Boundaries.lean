import StackCalc.Proofs.Decoding
import StackCalc.Proofs.Run

/-!
# Instruction boundaries

Where code decodes to its end and its jumps and calls lead to instructions, or to the end, the
machine never leaves the boundaries between instructions. It does not matter what the program
does: a fault leaves the pointer behind the instruction that raised it, which is a boundary too.
Assembled code is of this kind.
-/

namespace StackCalc

/-- The offset of an instruction, when the code is decoded from its beginning, or the end. -/
def Boundary (code : List UInt8) (offset : Nat) : Prop :=
  offset ∈ (instructions code).1.map Prod.fst ∨ offset = code.length

namespace Instruction

theorem add_encodedLength_le_of_decode {code : List UInt8} {offset : Nat} {i : Instruction}
    (h : decode code offset = .ok i) : offset + i.encodedLength ≤ code.length := by
  have hlt := lt_length_of_decode h
  have hlength := congrArg List.length (eq_encode_append_of_decodeFront h)
  rw [List.length_append, length_encode, List.length_drop] at hlength
  omega

end Instruction

section Decoded

variable {code : List UInt8} {start : Nat} {found : List (Nat × Instruction)}

theorem instructionsFrom_inv (hle : start ≤ code.length)
    (h : instructionsFrom start (code.drop start) = (found, none)) :
    (start = code.length ∧ found = []) ∨
      ∃ i later, Instruction.decode code start = .ok i ∧ found = (start, i) :: later ∧
        instructionsFrom (start + i.encodedLength) (code.drop (start + i.encodedLength)) =
          (later, none) := by
  cases hcode : code.drop start with
  | nil =>
      rw [hcode, instructionsFrom] at h
      have hend := List.drop_eq_nil_iff.1 hcode
      exact .inl ⟨Nat.le_antisymm hle hend, (Prod.mk.inj h).1.symm⟩
  | cons tag rest =>
      cases hdecode : Instruction.decode code start with
      | error e =>
          rw [Instruction.decode, hcode] at hdecode
          rw [hcode, instructionsFrom, hdecode] at h
          cases h
      | ok i =>
          rw [instructionsFrom_of_decode hdecode] at h
          obtain ⟨hfound, hnone⟩ := Prod.mk.inj h
          exact .inr ⟨i, _, rfl, hfound.symm, Prod.ext rfl hnone⟩

theorem start_mem_or_end (hle : start ≤ code.length)
    (h : instructionsFrom start (code.drop start) = (found, none)) :
    start ∈ found.map Prod.fst ∨ start = code.length := by
  obtain ⟨hend, -⟩ | ⟨i, later, -, rfl, -⟩ := instructionsFrom_inv hle h
  · exact .inr hend
  · exact .inl List.mem_cons_self

theorem decode_of_mem_found (hle : start ≤ code.length)
    (h : instructionsFrom start (code.drop start) = (found, none)) {offset : Nat}
    {i : Instruction} (hmem : (offset, i) ∈ found) : Instruction.decode code offset = .ok i ∧
      (offset + i.encodedLength ∈ found.map Prod.fst ∨
        offset + i.encodedLength = code.length) := by
  induction found generalizing start with
  | nil => cases hmem
  | cons first later ih =>
      obtain ⟨-, hnil⟩ | ⟨j, later', hdecode, hfound, hlater⟩ := instructionsFrom_inv hle h
      · cases hnil
      · cases hfound
        have hle' := Instruction.add_encodedLength_le_of_decode hdecode
        rcases List.mem_cons.1 hmem with heq | hmem
        · cases heq
          exact ⟨hdecode, (start_mem_or_end hle' hlater).imp_left (List.mem_cons_of_mem _)⟩
        · obtain ⟨hdecode', hbehind⟩ := ih hle' hlater hmem
          exact ⟨hdecode', hbehind.imp_left (List.mem_cons_of_mem _)⟩

end Decoded

/-- Code that decodes to its end, with no jump or call to anywhere but a boundary. -/
structure SelfContained (code : List UInt8) : Prop where
  decodes : (instructions code).2 = none
  targets : ∀ {offset i address}, (offset, i) ∈ (instructions code).1 →
    Listing.target? i = some address → Boundary code address.toNat

namespace SelfContained

variable {code : List UInt8} {offset : Nat} {i : Instruction}

theorem instructionsFrom_zero (h : SelfContained code) :
    instructionsFrom 0 (code.drop 0) = ((instructions code).1, none) :=
  Prod.ext rfl h.decodes

theorem boundary_zero (h : SelfContained code) : Boundary code 0 :=
  start_mem_or_end (Nat.zero_le _) h.instructionsFrom_zero

theorem decode_of_mem (h : SelfContained code) (hmem : (offset, i) ∈ (instructions code).1) :
    Instruction.decode code offset = .ok i ∧ Boundary code (offset + i.encodedLength) :=
  decode_of_mem_found (Nat.zero_le _) h.instructionsFrom_zero hmem

theorem exists_of_boundary (h : SelfContained code) (hb : Boundary code offset)
    (hlt : offset < code.length) : ∃ i, (offset, i) ∈ (instructions code).1 ∧
      Instruction.decode code offset = .ok i ∧ Boundary code (offset + i.encodedLength) := by
  rcases hb with hmem | hend
  · obtain ⟨⟨_, i⟩, hentry, rfl⟩ := List.mem_map.1 hmem
    exact ⟨i, hentry, h.decode_of_mem hentry⟩
  · exact absurd hend (Nat.ne_of_lt hlt)

theorem boundary_le (h : SelfContained code) (hb : Boundary code offset) :
    offset ≤ code.length := by
  rcases hb with hmem | hend
  · obtain ⟨⟨_, i⟩, hentry, rfl⟩ := List.mem_map.1 hmem
    exact Nat.le_of_lt (Instruction.lt_length_of_decode (h.decode_of_mem hentry).1)
  · exact Nat.le_of_eq hend

end SelfContained

/-- What can go wrong where the instructions and their targets are in order. -/
def FaultCause.Ordinary : FaultCause → Prop
  | decode _ | addressOutOfBounds _ => False
  | emptyOperandStack | emptyReturnStack | unbound _ | unknownInterrupt _ => True

namespace Machine

/-- The pointer and all return addresses are boundaries of the code. -/
structure OnBoundaries (code : List UInt8) (m : Machine) : Prop where
  ip : Boundary code m.ip
  returns : ∀ address ∈ m.returns, Boundary code address

/-- What an instruction leaves on boundaries, be it done or not. -/
def Stays (code : List UInt8) (result : Machine × Option FaultCause) : Prop :=
  result.1.OnBoundaries code ∧ ∀ cause ∈ result.2, cause.Ordinary

variable {code : List UInt8} {m : Machine}

theorem OnBoundaries.done {m' : Machine} (h : m.OnBoundaries code) (hip : m'.ip = m.ip)
    (hreturns : m'.returns = m.returns) : Stays code (m', none) :=
  ⟨⟨hip ▸ h.ip, hreturns ▸ h.returns⟩, nofun⟩

theorem OnBoundaries.fault {m' : Machine} {cause : FaultCause} (h : m.OnBoundaries code)
    (hip : m'.ip = m.ip) (hreturns : m'.returns = m.returns) (hcause : cause.Ordinary) :
    Stays code (m', some cause) := by
  refine ⟨⟨hip ▸ h.ip, hreturns ▸ h.returns⟩, ?_⟩
  rintro _ ⟨⟩
  exact hcause

theorem jump_stays {address : UInt32} {returns : List Nat} (hcode : SelfContained code)
    (haddress : Boundary code address.toNat) (hreturns : ∀ a ∈ returns, Boundary code a) :
    Stays code (m.jump code.length address returns) := by
  rw [jump, if_pos (hcode.boundary_le haddress)]
  exact ⟨⟨haddress, hreturns⟩, nofun⟩

theorem takeOperand_stays {use : Machine → Number → Machine} (h : m.OnBoundaries code)
    (hip : ∀ m value, (use m value).ip = m.ip)
    (hreturns : ∀ m value, (use m value).returns = m.returns) :
    Stays code (m.takeOperand use) := by
  unfold takeOperand
  split
  · exact h.done (hip _ _) (hreturns _ _)
  · exact h.fault rfl rfl trivial

theorem execute_stays {i : Instruction} (hcode : SelfContained code) (h : m.OnBoundaries code)
    (htarget : ∀ address, Listing.target? i = some address → Boundary code address.toNat) :
    Stays code (execute code.length m i) := by
  cases i with
  | jump address => exact jump_stays hcode (htarget address rfl) h.returns
  | call address =>
      refine jump_stays hcode (htarget address rfl) ?_
      exact List.forall_mem_cons.2 ⟨h.ip, h.returns⟩
  | ret =>
      rw [execute]
      split
      · next address rest hreturns =>
          obtain ⟨haddress, hrest⟩ := List.forall_mem_cons.1 (hreturns ▸ h.returns)
          exact ⟨⟨haddress, hrest⟩, nofun⟩
      · exact h.fault rfl rfl trivial
  | arith op =>
      rw [execute, arithmetic]
      split
      · exact h.done rfl rfl
      · exact h.fault rfl rfl trivial
  | push value => exact h.done rfl rfl
  | pop => exact takeOperand_stays h (fun _ _ => rfl) (fun _ _ => rfl)
  | set hash => exact takeOperand_stays h (fun _ _ => rfl) (fun _ _ => rfl)
  | get hash =>
      rw [execute]
      split
      · exact h.done rfl rfl
      · exact h.fault rfl rfl trivial
  | unset hash =>
      rw [execute]
      split
      · exact h.done rfl rfl
      · exact h.fault rfl rfl trivial
  | interrupt id =>
      rw [execute]
      split
      · exact takeOperand_stays h (fun _ _ => rfl) (fun _ _ => rfl)
      · exact h.fault rfl rfl trivial

/-- A step from a boundary ends on one, also when it faults, and no fault is about the code. -/
theorem step_stays (hcode : SelfContained code) (h : m.OnBoundaries code) :
    (m.step code).1.OnBoundaries code ∧
      ∀ fault, (m.step code).2 = .faulted fault → fault.cause.Ordinary := by
  by_cases hend : code.length ≤ m.ip
  · rw [step_of_end hend]
    exact ⟨h, nofun⟩
  · obtain ⟨i, hmem, hdecode, hbehind⟩ := hcode.exists_of_boundary h.ip (Nat.lt_of_not_le hend)
    have hpast : OnBoundaries code { m with ip := m.ip + i.encodedLength } :=
      ⟨hbehind, h.returns⟩
    have hstays := execute_stays hcode hpast fun _ => hcode.targets hmem
    simp only [step, if_neg hend, hdecode]
    split
    · next m' cause hexecute =>
        rw [hexecute] at hstays
        refine ⟨hstays.1, ?_⟩
        rintro _ ⟨⟩
        exact hstays.2 cause rfl
    · next m' hexecute =>
        rw [hexecute] at hstays
        refine ⟨hstays.1, fun fault hfault => ?_⟩
        dsimp only at hfault
        split at hfault <;> cases hfault

theorem after_onBoundaries (hcode : SelfContained code) (h : m.OnBoundaries code) (n : Nat) :
    (after code n m).OnBoundaries code := by
  induction n generalizing m with
  | zero => exact h
  | succ n ih => exact ih (step_stays hcode h).1

theorem initial_onBoundaries (hcode : SelfContained code) : initial.OnBoundaries code :=
  ⟨hcode.boundary_zero, nofun⟩

end Machine

namespace Assembly

theorem boundary_offsetAt {code : List UInt8} (place : Nat) :
    Boundary code (offsetAt (instructions code).1 code.length place) := by
  unfold offsetAt
  cases h : (instructions code).1[place]? with
  | none => exact .inr rfl
  | some entry => exact .inl (List.mem_map_of_mem (List.mem_of_getElem? h))

/-- The target of an instruction is the address of a label. -/
theorem lookup_of_target? {image : Image} {commands : List Command} {found : List Instruction}
    (h : List.Forall₂ (Lowers image) commands found) {i : Instruction} (hmem : i ∈ found)
    {address : UInt32} (htarget : Listing.target? i = some address) :
    ∃ name, image.labels.lookup name = some address := by
  induction h with
  | nil => cases hmem
  | cons hlowers _ ih =>
      rcases List.mem_cons.1 hmem with rfl | hmem
      · cases hlowers with
        | jump hlookup | call hlookup =>
            cases htarget
            exact ⟨_, hlookup⟩
        | _ => cases htarget
      · exact ih hmem

theorem boundary_of_lookup {items : List (Located Item)} {image : Image} {name : String}
    {address : UInt32} (h : Image.ofEntries nameHash (entriesOf items) = .ok image)
    (hlookup : image.labels.lookup name = some address) :
    Boundary image.bytecode address.toNat := by
  obtain ⟨found, hfound, -, -, hlabels⟩ := (laid_of_ofEntries h).instructions rfl
  have hname := mem_labelNames_of_lookup (labels_of_ofEntries h) hlookup
  obtain ⟨before, after, hitems⟩ := List.append_of_mem (mem_labelNames.1 hname)
  obtain ⟨known, hknown, hoffset⟩ := hlabels before name after hitems
  cases hlookup.symm.trans hknown
  have hall : (instructions image.bytecode).1 = found := congrArg Prod.fst hfound
  rw [hoffset, ← hall]
  exact boundary_offsetAt _

theorem selfContained_of_ofEntries {items : List (Located Item)} {image : Image}
    (h : Image.ofEntries nameHash (entriesOf items) = .ok image) :
    SelfContained image.bytecode := by
  obtain ⟨found, hfound, -, hcommands, -⟩ := (laid_of_ofEntries h).instructions rfl
  obtain ⟨hall, hnone⟩ := Prod.mk.inj hfound
  refine ⟨hnone, fun {offset i address} hmem htarget => ?_⟩
  have hentry : (offset, i) ∈ found := hall ▸ hmem
  obtain ⟨name, hlookup⟩ :=
    lookup_of_target? hcommands (List.mem_map_of_mem hentry) htarget
  exact boundary_of_lookup h hlookup

/-- Whatever a unit does, and however often it is stepped on after it has halted or faulted, the
pointer and the return addresses stay on the boundaries of its instructions, and the faults that
come up are those that a program may run into, none of them about the code. -/
theorem assembled_stays_on_boundaries {text : List Char} {image : Image}
    (h : assemble text = .ok image) (n : Nat) :
    (Machine.after image.bytecode n Machine.initial).OnBoundaries image.bytecode ∧
      ∀ fault, ((Machine.after image.bytecode n Machine.initial).step image.bytecode).2 =
        .faulted fault → fault.cause.Ordinary := by
  obtain ⟨located, -, hofEntries⟩ := assembleWith_ok h
  have hcode := selfContained_of_ofEntries hofEntries
  have hafter := Machine.after_onBoundaries hcode (Machine.initial_onBoundaries hcode) n
  exact ⟨hafter, (Machine.step_stays hcode hafter).2⟩

/-- A unit whose first instruction faults and which then jumps past another to its end. -/
def strayReturn : List Char := "ret jmp last push 1.5 last:".toList

theorem stray_return_stays_on_boundaries : ∃ image, assemble strayReturn = .ok image ∧
    (Machine.initial.step image.bytecode).2 = .faulted ⟨0, .emptyReturnStack⟩ ∧
    FaultCause.emptyReturnStack.Ordinary ∧
    (Machine.after image.bytecode 2 Machine.initial).ip = image.bytecode.length ∧
    (Machine.after image.bytecode 2 Machine.initial).OnBoundaries image.bytecode := by
  obtain ⟨image, h, hrun⟩ := exists_of_any (p := fun image =>
    (Machine.initial.step image.bytecode).2 = .faulted ⟨0, .emptyReturnStack⟩ ∧
      (Machine.after image.bytecode 2 Machine.initial).ip = image.bytecode.length)
    (by decide +kernel : (assemble strayReturn).toOption.any _ = true)
  obtain ⟨hfault, hend⟩ := of_decide_eq_true hrun
  exact ⟨image, h, hfault, (assembled_stays_on_boundaries h 0).2 _ hfault, hend,
    (assembled_stays_on_boundaries h 2).1⟩

end Assembly

end StackCalc
