import Mathlib.Data.List.Duplicate
import Mathlib.Data.List.Perm.Subperm
import StackCalc.Proofs.Convention

/-!
# Functions that are entered again

Where the machine goes does not depend on the values it computes with: the next pointer and the
next return addresses are told by the instruction and the return addresses alone. So a function
that is entered while a call of it is open is entered once more in the same way, on top of all
that is open then, and a run that does not fault goes on without end. In a run that halts the open
calls are therefore calls of different functions, and there are no more of them than the program
has functions.
-/

namespace StackCalc

open Assembly Source
open Instruction (decode)

/-- Where an instruction at an offset leads to, and the return addresses there. -/
def Instruction.transfer (i : Instruction) (offset : Nat) (returns : List Nat) : Nat × List Nat :=
  match i with
  | .jump address => (address.toNat, returns)
  | .call address => (address.toNat, (offset + i.encodedLength) :: returns)
  | .ret => (returns.headD 0, returns.tail)
  | _ => (offset + i.encodedLength, returns)

namespace Machine

def callsBehind (code : List UInt8) (m : Machine) (calls : List UInt32) : List UInt32 :=
  match decode code m.ip with
  | .ok (.call address) => address :: calls
  | .ok .ret => calls.tail
  | _ => calls

/-- The calls that have been made and not come back after a number of steps, told by the addresses
that they went to, the innermost first. -/
def openCalls (code : List UInt8) (m : Machine) : Nat → List UInt32
  | 0 => []
  | n + 1 => (after code n m).callsBehind code (openCalls code m n)

/-- As long as the machine has not come to the end of the code, it moves on. -/
def NeverFaults (code : List UInt8) (m : Machine) : Prop :=
  ∀ n, (∃ m', (after code n m).Moves code m') ∨ code.length ≤ (after code n m).ip

variable {code : List UInt8} {m m₁ m' m₁' : Machine}

theorem mem_callsBehind {calls : List UInt32} {address : UInt32}
    (h : address ∈ m.callsBehind code calls) :
    decode code m.ip = .ok (.call address) ∨ address ∈ calls := by
  unfold callsBehind at h
  cases hdecoded : decode code m.ip with
  | error e =>
      rw [hdecoded] at h
      exact .inr h
  | ok i =>
      rw [hdecoded] at h
      cases i with
      | call called =>
          rcases List.mem_cons.1 h with rfl | h
          · exact .inl rfl
          · exact .inr h
      | ret => exact .inr (List.mem_of_mem_tail h)
      | jump address | arith op | push value | pop | set hash | get hash | unset hash
      | interrupt id => exact .inr h

theorem Moves.exists_return (h : Moves code m m') (hret : decode code m.ip = .ok .ret) :
    ∃ address rest, m.returns = address :: rest := by
  obtain ⟨i, hdecoded, hexecuted⟩ := h
  cases hret.symm.trans hdecoded
  rw [execute] at hexecuted
  split at hexecuted
  · next address rest hreturns => exact ⟨address, rest, hreturns⟩
  · cases hexecuted

/-- No value has a say in where the machine goes. -/
theorem Moves.transfer (h : Moves code m m') : ∃ i, decode code m.ip = .ok i ∧
    (m'.ip, m'.returns) = i.transfer m.ip m.returns := by
  obtain ⟨i, hdecoded, hexecuted⟩ := h
  refine ⟨i, hdecoded, ?_⟩
  cases i with
  | jump address | call address =>
      rw [execute, jump] at hexecuted
      split at hexecuted <;> cases hexecuted
      rfl
  | ret =>
      rw [execute] at hexecuted
      split at hexecuted
      · next address rest hreturns =>
          cases hexecuted
          have hreturns : m.returns = address :: rest := hreturns
          rw [hreturns]
          rfl
      · cases hexecuted
  | arith op =>
      rw [execute, arithmetic] at hexecuted
      split at hexecuted <;> cases hexecuted
      rfl
  | push value =>
      cases hexecuted
      rfl
  | pop | set hash =>
      rw [execute, takeOperand] at hexecuted
      split at hexecuted <;> cases hexecuted
      rfl
  | get hash | unset hash =>
      rw [execute] at hexecuted
      split at hexecuted <;> cases hexecuted
      rfl
  | interrupt id =>
      rw [execute] at hexecuted
      split at hexecuted
      · rw [takeOperand] at hexecuted
        split at hexecuted <;> cases hexecuted
        rfl
      · cases hexecuted

theorem Moves.calls (h : Moves code m m') (calls : List UInt32) :
    (∃ address, m.callsBehind code calls = address :: calls ∧ m'.ip = address.toNat ∧
      ∃ back, m'.returns = back :: m.returns) ∨
    (m.callsBehind code calls = calls.tail ∧ m.returns = m'.ip :: m'.returns) ∨
    (m.callsBehind code calls = calls ∧ m'.returns = m.returns) := by
  obtain ⟨i, hdecoded, htransfer⟩ := h.transfer
  unfold callsBehind
  rw [hdecoded]
  cases i with
  | call address =>
      obtain ⟨hip, hreturns⟩ := Prod.mk.inj htransfer
      exact .inl ⟨address, rfl, hip, _, hreturns⟩
  | ret =>
      obtain ⟨address, rest, hcons⟩ := h.exists_return hdecoded
      rw [hcons] at htransfer
      obtain ⟨hip, hreturns⟩ := Prod.mk.inj htransfer
      rw [hip, hreturns]
      exact .inr (.inl ⟨rfl, hcons⟩)
  | jump address | arith op | push value | pop | set hash | get hash | unset hash
  | interrupt id =>
      exact .inr (.inr ⟨rfl, (Prod.mk.inj htransfer).2⟩)

theorem Moves.alike {base base' above : List Nat} (h : Moves code m m₁) (h' : Moves code m' m₁')
    (hip : m'.ip = m.ip) (hreturns : m.returns = above ++ base)
    (hreturns' : m'.returns = above ++ base') (hbase : base <:+ m₁.returns) :
    m₁'.ip = m₁.ip ∧ ∃ above, m₁.returns = above ++ base ∧ m₁'.returns = above ++ base' := by
  obtain ⟨i, hdecoded, htransfer⟩ := h.transfer
  obtain ⟨i', hdecoded', htransfer'⟩ := h'.transfer
  rw [hip, hdecoded] at hdecoded'
  cases hdecoded'
  rw [hreturns] at htransfer
  rw [hip, hreturns'] at htransfer'
  obtain ⟨hip₁, hreturns₁⟩ := Prod.mk.inj htransfer
  obtain ⟨hip₁', hreturns₁'⟩ := Prod.mk.inj htransfer'
  cases i with
  | call address => exact ⟨hip₁'.trans hip₁.symm, _ :: above, hreturns₁, hreturns₁'⟩
  | ret =>
      cases above with
      | nil =>
          -- a return to below the base would not leave the base in place
          obtain ⟨address, rest, hcons⟩ := h.exists_return hdecoded
          rw [hreturns, List.nil_append] at hcons
          have hreturns₁ : m₁.returns = base.tail := hreturns₁
          have hle := hbase.length_le
          rw [hreturns₁, hcons, List.tail_cons, List.length_cons] at hle
          omega
      | cons address above => exact ⟨hip₁'.trans hip₁.symm, above, hreturns₁, hreturns₁'⟩
  | jump address | arith op | push value | pop | set hash | get hash | unset hash
  | interrupt id => exact ⟨hip₁'.trans hip₁.symm, above, hreturns₁, hreturns₁'⟩

theorem after_succ (m : Machine) (n : Nat) :
    after code (n + 1) m = ((after code n m).step code).1 := by
  rw [after_add, after, after]

theorem Moves.after_succ {n : Nat} (h : (after code n m).Moves code m') :
    after code (n + 1) m = m' := by
  rw [Machine.after_succ, h.step]

theorem openCalls_of_end {n : Nat} (h : code.length ≤ (after code n m).ip) :
    openCalls code m (n + 1) = openCalls code m n ∧ after code (n + 1) m = after code n m := by
  refine ⟨?_, by rw [after_succ, step_of_end h]⟩
  change (after code n m).callsBehind code (openCalls code m n) = _
  unfold callsBehind
  cases hdecoded : decode code (after code n m).ip with
  | ok i => exact absurd (Instruction.lt_length_of_decode hdecoded) (Nat.not_lt.2 h)
  | error e => rfl

/-- A call has been made just before step `k`, and is open at step `n` still. -/
structure EnteredAt (code : List UInt8) (m : Machine) (k n : Nat) (address : UInt32)
    (outer : List UInt32) : Prop where
  le : k ≤ n
  calls : openCalls code m k = address :: outer
  ip : (after code k m).ip = address.toNat
  stays : ∀ i, k ≤ i → i ≤ n → (after code k m).returns <:+ (after code i m).returns

namespace EnteredAt

variable {k n : Nat} {address : UInt32} {outer : List UInt32}

theorem now (hcalls : openCalls code m n = address :: outer)
    (hip : (after code n m).ip = address.toNat) : EnteredAt code m n n address outer := by
  refine ⟨Nat.le_refl n, hcalls, hip, fun i hni hin => ?_⟩
  obtain rfl := Nat.le_antisymm hin hni
  exact List.suffix_rfl

theorem stays_last (h : EnteredAt code m k n address outer) :
    (after code k m).returns <:+ (after code n m).returns := h.stays n h.le (Nat.le_refl n)

theorem succ (h : EnteredAt code m k n address outer)
    (hkept : (after code k m).returns <:+ (after code (n + 1) m).returns) :
    EnteredAt code m k (n + 1) address outer := by
  refine ⟨Nat.le_succ_of_le h.le, h.calls, h.ip, fun i hki hi => ?_⟩
  rcases Nat.le_or_eq_of_le_succ hi with hi | rfl
  · exact h.stays i hki hi
  · exact hkept

end EnteredAt

namespace NeverFaults

theorem openCalls_succ (h : NeverFaults code m) (n : Nat) :
    (∃ address, openCalls code m (n + 1) = address :: openCalls code m n ∧
      (after code (n + 1) m).ip = address.toNat ∧
      ∃ back, (after code (n + 1) m).returns = back :: (after code n m).returns) ∨
    (openCalls code m (n + 1) = (openCalls code m n).tail ∧
      ∃ address, (after code n m).returns = address :: (after code (n + 1) m).returns) ∨
    (openCalls code m (n + 1) = openCalls code m n ∧
      (after code (n + 1) m).returns = (after code n m).returns) := by
  rcases h n with ⟨m', hmove⟩ | hend
  · rw [hmove.after_succ, openCalls]
    rcases hmove.calls (openCalls code m n) with hcall | ⟨hcalls, hreturns⟩ | hplain
    · exact .inl hcall
    · exact .inr (.inl ⟨hcalls, _, hreturns⟩)
    · exact .inr (.inr hplain)
  · obtain ⟨hcalls, hafter⟩ := openCalls_of_end hend
    exact .inr (.inr ⟨hcalls, congrArg Machine.returns hafter⟩)

theorem length_openCalls (h : NeverFaults code m) (hm : m.returns = []) (n : Nat) :
    (openCalls code m n).length = (after code n m).returns.length := by
  induction n with
  | zero =>
      rw [after, hm]
      rfl
  | succ n ih =>
      rcases h.openCalls_succ n with ⟨address, hcalls, -, back, hreturns⟩ |
        ⟨hcalls, address, hreturns⟩ | ⟨hcalls, hreturns⟩
      · rw [hcalls, hreturns, List.length_cons, List.length_cons, ih]
      · rw [hreturns, List.length_cons] at ih
        rw [hcalls, List.length_tail, ih, Nat.add_sub_cancel]
      · rw [hcalls, hreturns, ih]

theorem exists_entered (h : NeverFaults code m) (hm : m.returns = []) {n : Nat}
    {inner outer : List UInt32} {address : UInt32}
    (hopen : openCalls code m n = inner ++ address :: outer) :
    ∃ k, EnteredAt code m k n address outer := by
  induction n generalizing inner with
  | zero =>
      have hlength := congrArg List.length hopen
      rw [openCalls, List.length_append, List.length_cons, List.length_nil] at hlength
      omega
  | succ n ih =>
      rcases h.openCalls_succ n with ⟨called, hcalls, hip, back, hreturns⟩ |
        ⟨hcalls, back, hreturns⟩ | ⟨hcalls, hreturns⟩
      · rw [hcalls] at hopen
        cases inner with
        | nil =>
            obtain ⟨rfl, rfl⟩ := List.cons.inj hopen
            exact ⟨n + 1, .now hcalls hip⟩
        | cons first inner =>
            obtain ⟨k, hentered⟩ := ih (List.cons.inj hopen).2
            refine ⟨k, hentered.succ ?_⟩
            rw [hreturns]
            exact hentered.stays_last.trans (List.suffix_cons _ _)
      · rw [hcalls] at hopen
        obtain ⟨first, hfirst⟩ : ∃ first,
            openCalls code m n = (first :: inner) ++ address :: outer := by
          cases hn : openCalls code m n with
          | nil => simp [hn] at hopen
          | cons first rest =>
              rw [hn, List.tail_cons] at hopen
              exact ⟨first, by rw [hopen, List.cons_append]⟩
        obtain ⟨k, hentered⟩ := ih hfirst
        refine ⟨k, hentered.succ ?_⟩
        -- the address that is returned to lies above those of the call
        have hlength := h.length_openCalls hm n
        have hlength' := h.length_openCalls hm k
        have hsuffix := hentered.stays_last
        rw [hfirst, hreturns] at hlength
        rw [hentered.calls] at hlength'
        rw [hreturns, List.suffix_cons_iff] at hsuffix
        refine hsuffix.resolve_left fun hsame => ?_
        rw [hsame] at hlength'
        simp only [List.length_append, List.length_cons] at hlength hlength'
        omega
      · rw [hcalls] at hopen
        obtain ⟨k, hentered⟩ := ih hopen
        refine ⟨k, hentered.succ ?_⟩
        rw [hreturns]
        exact hentered.stays_last

/-- What is done above certain return addresses is done again wherever the machine comes to the same
instruction. -/
theorem repeats (h : NeverFaults code m) {start again count : Nat}
    (hip : (after code again m).ip = (after code start m).ip)
    (hinside : ∀ i < count, (after code (start + i) m).ip < code.length)
    (habove : ∀ i ≤ count, (after code start m).returns <:+ (after code (start + i) m).returns) :
    (after code (again + count) m).ip = (after code (start + count) m).ip ∧
      ∃ above, (after code (start + count) m).returns = above ++ (after code start m).returns ∧
        (after code (again + count) m).returns = above ++ (after code again m).returns := by
  induction count with
  | zero => exact ⟨hip, [], rfl, rfl⟩
  | succ count ih =>
      obtain ⟨hsame, above, hreturns, hreturns'⟩ := ih
        (fun i hi => hinside i (Nat.lt_succ_of_lt hi)) fun i hi => habove i (Nat.le_succ_of_le hi)
      have hlt := hinside count (Nat.lt_succ_self count)
      obtain ⟨m₁, hmove⟩ := (h (start + count)).resolve_right (Nat.not_le.2 hlt)
      obtain ⟨m₁', hmove'⟩ := (h (again + count)).resolve_right (Nat.not_le.2 (hsame ▸ hlt))
      have hbase := habove (count + 1) (Nat.le_refl _)
      rw [← Nat.add_assoc, hmove.after_succ] at hbase
      rw [← Nat.add_assoc, ← Nat.add_assoc, hmove.after_succ, hmove'.after_succ]
      exact hmove.alike hmove' hsame hreturns hreturns' hbase

theorem comes_again (h : NeverFaults code m) {start count : Nat}
    (hip : (after code (start + count) m).ip = (after code start m).ip)
    (hlt : (after code start m).ip < code.length)
    (habove : ∀ i ≤ count, (after code start m).returns <:+ (after code (start + i) m).returns)
    (rounds : Nat) :
    (after code (start + rounds * count) m).ip = (after code start m).ip := by
  have hinside : ∀ i < count, (after code (start + i) m).ip < code.length := by
    intro i hi
    by_contra hend
    obtain ⟨k, rfl⟩ := Nat.exists_eq_add_of_le (Nat.le_of_lt hi)
    rw [← Nat.add_assoc, after_add, after_of_end (Nat.not_lt.1 hend)] at hip
    exact hend (hip ▸ hlt)
  induction rounds with
  | zero => rw [Nat.zero_mul, Nat.add_zero]
  | succ rounds ih =>
      rw [Nat.succ_mul, ← Nat.add_assoc]
      exact (h.repeats ih hinside habove).1.trans hip

theorem inside_of_reentry (h : NeverFaults code m) (hm : m.returns = []) {k : Nat}
    (hopen : ¬ (openCalls code m k).Nodup) (n : Nat) : (after code n m).ip < code.length := by
  obtain ⟨address, hduplicate⟩ := List.exists_duplicate_iff_not_nodup.2 hopen
  obtain ⟨newer, older, hcalls, hnewer, holder⟩ :=
    List.cons_sublist_iff.1 (List.duplicate_iff_sublist.1 hduplicate)
  obtain ⟨inner, between, rfl⟩ := List.append_of_mem hnewer
  obtain ⟨between', outer, rfl⟩ := List.append_of_mem (List.singleton_sublist.1 holder)
  rw [List.append_assoc, List.cons_append, ← List.append_assoc between] at hcalls
  -- the newer of the two calls was made while the older one was open
  obtain ⟨again, -, hagain, hipAgain, -⟩ := h.exists_entered hm hcalls
  rw [← List.cons_append] at hagain
  obtain ⟨start, hle, hstart, hipStart, habove⟩ := h.exists_entered hm hagain
  obtain ⟨count, rfl⟩ := Nat.exists_eq_add_of_le hle
  have hcount : 0 < count := by
    rcases Nat.eq_zero_or_pos count with rfl | hpos
    · rw [Nat.add_zero, hstart] at hagain
      have hlength := congrArg List.length hagain
      simp only [List.length_append, List.length_cons] at hlength
      omega
    · exact hpos
  have hip := hipAgain.trans hipStart.symm
  have hlt : (after code start m).ip < code.length := by
    by_contra hend
    have hsame : after code (start + count) m = after code start m := by
      rw [after_add, after_of_end (Nat.not_lt.1 hend)]
    have hlength := h.length_openCalls hm (start + count)
    rw [hsame, ← h.length_openCalls hm start, hagain, hstart] at hlength
    simp only [List.length_append, List.length_cons] at hlength
    omega
  have hcomes := h.comes_again hip hlt fun i hi =>
    habove (start + i) (Nat.le_add_right _ _) (Nat.add_le_add_left hi start)
  by_contra hend
  obtain ⟨more, hmore⟩ := Nat.exists_eq_add_of_le
    ((Nat.le_mul_of_pos_right n hcount).trans (Nat.le_add_left (n * count) start))
  have hlate := hcomes n
  rw [hmore, after_add, after_of_end (Nat.not_lt.1 hend)] at hlate
  exact hend (hlate ▸ hlt)

theorem run_eq (h : NeverFaults code m) (n : Nat) : m.run code n = (after code n m,
    if 0 < n ∧ code.length ≤ (after code n m).ip then .halted else .running) := by
  induction n generalizing m with
  | zero => rfl
  | succ n ih =>
      rcases h 0 with ⟨m₁, hmove⟩ | hend
      · have hmove : Moves code m m₁ := hmove
        have hshift (k : Nat) : after code (k + 1) m = after code k m₁ := by
          rw [after, hmove.step]
        rw [run, hmove.step, hshift]
        by_cases hend : code.length ≤ m₁.ip
        · rw [if_pos hend, after_of_end hend, if_pos ⟨Nat.succ_pos n, hend⟩]
        · rw [if_neg hend]
          have hrun := ih fun k => hshift k ▸ h (k + 1)
          cases n with
          | zero => exact Prod.ext rfl (if_neg (not_and_of_not_right _ hend)).symm
          | succ n => simpa only [Nat.succ_pos, true_and] using hrun
      · have hend : code.length ≤ m.ip := hend
        rw [run, step_of_end hend, after_of_end hend, if_pos ⟨Nat.succ_pos n, hend⟩]

end NeverFaults

end Machine

namespace Source.Program.Builds

variable {program : Program} {image : Image}

theorem neverFaults (h : program.Builds image) : Machine.initial.NeverFaults image.bytecode :=
  fun n => (h.reached n).imp (·.2) (·.ge)

theorem definition_of_openCall (h : program.Builds image) (n : Nat) :
    ∀ address ∈ Machine.initial.openCalls image.bytecode n,
      ∃ d ∈ program.definitions, image.labels.lookup d.id.qualified = some address := by
  induction n with
  | zero =>
      intro address hmem
      cases hmem
  | succ n ih =>
      intro address hmem
      rcases Machine.mem_callsBehind hmem with hdecoded | hmem
      · obtain ⟨d, hd, hlabel, -⟩ := h.call_comes_back hdecoded
        exact ⟨d, hd, hlabel⟩
      · exact ih address hmem

theorem length_openCalls_le (h : program.Builds image) {n : Nat}
    (hnodup : (Machine.initial.openCalls image.bytecode n).Nodup) :
    (Machine.initial.openCalls image.bytecode n).length ≤ program.definitions.length := by
  have hsubset : Machine.initial.openCalls image.bytecode n ⊆
      program.definitions.filterMap fun d => image.labels.lookup d.id.qualified := by
    intro address hmem
    obtain ⟨d, hd, hlabel⟩ := h.definition_of_openCall n address hmem
    exact List.mem_filterMap.2 ⟨d, hd, hlabel⟩
  exact (List.subperm_of_subset hnodup hsubset).length_le.trans (List.length_filterMap_le _ _)

theorem unending_of_reentry (h : program.Builds image) {k : Nat}
    (hopen : ¬ (Machine.initial.openCalls image.bytecode k).Nodup) (n : Nat) :
    Machine.run image.bytecode n .initial =
      (Machine.after image.bytecode n .initial, .running) := by
  have hinside := h.neverFaults.inside_of_reentry rfl hopen n
  rw [h.neverFaults.run_eq, if_neg fun hhalted => Nat.not_le.2 hinside hhalted.2]

end Source.Program.Builds

namespace Toolchain

/-- The calls that are open at any time are calls of functions of the program. If two of them are of
one function the run goes on without end. So in a run that halts all of them are of different
functions at any time, and there are never more return addresses than functions. -/
theorem halting_run_never_reenters {source asm : String} {image : Image}
    (hcompile : compile source = .ok asm) (hassemble : assemble asm = .ok image) :
    ∃ program, parse source = .ok program ∧
      (∀ k, (Machine.initial.openCalls image.bytecode k).length =
          (Machine.after image.bytecode k .initial).returns.length ∧
        ∀ address ∈ Machine.initial.openCalls image.bytecode k, ∃ d ∈ program.definitions,
          image.labels.lookup d.id.qualified = some address ∧
          ∀ e ∈ program.definitions, image.labels.lookup e.id.qualified = some address → e = d) ∧
      (∀ n m, Machine.run image.bytecode n .initial = (m, .halted) →
        ∀ k, (Machine.initial.openCalls image.bytecode k).Nodup ∧
          (Machine.after image.bytecode k .initial).returns.length ≤
            program.definitions.length) ∧
      ∀ k, ¬ (Machine.initial.openCalls image.bytecode k).Nodup →
        ∀ n, ∃ m, Machine.run image.bytecode n .initial = (m, .running) := by
  obtain ⟨program, hparse, hbuilds⟩ := builds_of_compile hcompile hassemble
  have hlength := hbuilds.neverFaults.length_openCalls rfl
  refine ⟨program, hparse, fun k => ⟨hlength k, fun address hmem => ?_⟩, fun n m hrun k => ?_,
    fun k hopen n => ⟨_, hbuilds.unending_of_reentry hopen n⟩⟩
  · obtain ⟨d, hd, hlabel⟩ := hbuilds.definition_of_openCall k address hmem
    exact ⟨d, hd, hlabel, fun e he heLabel => hbuilds.callee_of_label he hd heLabel hlabel⟩
  · have hnodup : (Machine.initial.openCalls image.bytecode k).Nodup := by
      by_contra hopen
      cases hrun.symm.trans (hbuilds.unending_of_reentry hopen n)
    exact ⟨hnodup, hlength k ▸ hbuilds.length_openCalls_le hnodup⟩

/-- A function that calls one inside it, both open at once. -/
def nestedCall : String := "def f(x) { def g(y) { return x + y; } return g(2); } print(f(40));"

def callBack : String := "def f(x) { def g(y) { return f(y); } return g(x); } f(1);"

theorem nested_call_halts_call_back_does_not :
    (∃ asm image program, compile nestedCall = .ok asm ∧ assemble asm = .ok image ∧
      parse nestedCall = .ok program ∧ (Machine.run image.bytecode 16 .initial).2 = .halted ∧
      (Machine.after image.bytecode 8 .initial).returns.length = 2 ∧
      (Machine.initial.openCalls image.bytecode 8).Nodup ∧ 2 ≤ program.definitions.length) ∧
    ∃ asm image, compile callBack = .ok asm ∧ assemble asm = .ok image ∧
      ¬ (Machine.initial.openCalls image.bytecode 10).Nodup ∧
      ∀ n, ∃ m, Machine.run image.bytecode n .initial = (m, .running) := by
  constructor
  · obtain ⟨image, hbuilt, hruns⟩ := exists_of_any (by decide +kernel :
      (compile nestedCall >>= assemble).toOption.any (fun image : Image =>
        decide ((Machine.run image.bytecode 16 .initial).2 = .halted) &&
        decide ((Machine.after image.bytecode 8 .initial).returns.length = 2)) = true)
    simp only [Bool.and_eq_true, decide_eq_true_eq] at hruns
    obtain ⟨hhalts, hdepth⟩ := hruns
    obtain ⟨asm, hcompile, hassemble⟩ := bind_eq_ok_iff.1 hbuilt
    obtain ⟨program, hparse, -, hhalted, -⟩ := halting_run_never_reenters hcompile hassemble
    obtain ⟨hnodup, hle⟩ := hhalted 16 _ (Prod.ext rfl hhalts) 8
    exact ⟨asm, image, program, hcompile, hassemble, hparse, hhalts, hdepth, hnodup,
      hdepth ▸ hle⟩
  · obtain ⟨image, hbuilt, hopen⟩ := exists_of_any (by decide +kernel :
      (compile callBack >>= assemble).toOption.any (fun image : Image =>
        decide (¬ (Machine.initial.openCalls image.bytecode 10).Nodup)) = true)
    obtain ⟨asm, hcompile, hassemble⟩ := bind_eq_ok_iff.1 hbuilt
    obtain ⟨program, -, -, -, hunending⟩ := halting_run_never_reenters hcompile hassemble
    have hopen := of_decide_eq_true hopen
    exact ⟨asm, image, hcompile, hassemble, hopen, hunending 10 hopen⟩

end Toolchain

end StackCalc
