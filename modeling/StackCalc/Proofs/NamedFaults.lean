import StackCalc.Proofs.Boundaries
import StackCalc.Proofs.NamingMachine
import StackCalc.Proofs.Refusals
import StackCalc.Toolchain

/-!
# Faults that name variables

Assembled code that is run with the names of its image differs from bare code in one thing only: a
variable that is not found is shown by the name that the instruction was written with, where bare
code shows the hash.
-/

namespace StackCalc

namespace Text

/-- The last hexadecimal digits of a number, as many as there is room for. -/
def hexDigits : (width : Nat) → (n : Nat) → List Char
  | 0, _ => []
  | width + 1, n => hexDigits width (n / 16) ++ [Nat.digitChar (n % 16)]

theorem hexDigits_zero (width : Nat) : hexDigits width 0 = List.replicate width '0' := by
  induction width with
  | zero => rfl
  | succ width ih =>
      rw [hexDigits, Nat.zero_div, ih, List.replicate_succ']
      rfl

theorem leftpad_toDigits {width n : Nat} (hwidth : 0 < width) (h : n < 16 ^ width) :
    (Nat.toDigits 16 n).leftpad width '0' = hexDigits width n := by
  induction width generalizing n with
  | zero => exact absurd hwidth (Nat.lt_irrefl 0)
  | succ width ih =>
      rw [hexDigits]
      by_cases hsmall : n < 16
      · rw [Nat.toDigits_of_lt_base hsmall, Nat.div_eq_of_lt hsmall, Nat.mod_eq_of_lt hsmall,
          hexDigits_zero]
        rfl
      · have hquotient : n / 16 < 16 ^ width := by
          rw [Nat.pow_succ] at h
          omega
        have hpos : 0 < width := by
          apply Nat.pos_of_ne_zero
          rintro rfl
          exact hsmall h
        rw [Nat.toDigits_of_base_le (by omega) (by omega), ← ih hpos hquotient, List.leftpad,
          List.leftpad, List.length_append, List.length_singleton, Nat.add_sub_add_right,
          List.append_assoc]

theorem toList_hashName (hash : UInt64) :
    (hashName hash).toList = '#' :: hexDigits 16 hash.toNat := by
  have hdigits := leftpad_toDigits (Nat.succ_pos 15) hash.toNat_lt
  simpa [hashName, hex] using hdigits

end Text

theorem FaultCause.shownBy_congr {names names' : Names}
    (h : names.describe = names'.describe) (cause : FaultCause) :
    cause.shownBy names = cause.shownBy names' := by
  cases cause with
  | unbound hash => exact congrArg _ (congrFun h hash)
  | _ => rfl

theorem Machine.Status.shownBy_congr {names names' : Names}
    (h : names.describe = names'.describe) (status : Machine.Status) :
    status.shownBy names = status.shownBy names' := by
  cases status with
  | running => rfl
  | halted => rfl
  | faulted fault => exact congrArg _ (fault.cause.shownBy_congr h)

section Tables

variable {hasher : String → UInt64} {given : List String} {names : Names}

/-- The names of a table, hashed once more, make the same table. -/
theorem Names.Holds.describe_ofList (h : names.Holds hasher given) :
    (Names.ofList hasher (names.map Prod.snd)).describe = names.describe := by
  have hentry : ∀ entry ∈ names, (hasher entry.2, entry.2) = entry := by
    rintro ⟨hash, name⟩ hmem
    have hlookup := (Assembly.Layout.lookup_eq_some_iff_mem h.distinct).2 hmem
    exact Prod.ext ((h.lookup_eq _ _).1 hlookup).2 rfl
  have hlist : Names.ofList hasher (names.map Prod.snd) = names.reverse := by
    unfold Names.ofList
    rw [List.map_map]
    exact congrArg List.reverse ((List.map_congr_left hentry).trans names.map_id')
  have hreverse : (names.reverse.map Prod.fst).Nodup := by
    rw [List.map_reverse]
    exact List.nodup_reverse.2 h.distinct
  funext hash
  have hlookup : names.reverse.lookup hash = names.lookup hash := by
    ext name
    rw [Assembly.Layout.lookup_eq_some_iff_mem hreverse,
      Assembly.Layout.lookup_eq_some_iff_mem h.distinct, List.mem_reverse]
  rw [hlist, Names.describe, Names.describe, hlookup]

theorem Names.describe_of_lookup {hash : UInt64} {name : String}
    (h : names.lookup hash = some name) : names.describe hash = name := by
  rw [Names.describe, h, Option.getD_some]

end Tables

namespace Machine

variable {code : List UInt8} {m m' : Machine} {size offset : Nat} {i : Instruction} {hash : UInt64}

/-- A variable that is not found is the one that the instruction is about. -/
theorem name?_of_unbound (h : (execute size m i).2 = some (.unbound hash)) :
    i.name? = some hash := by
  cases i with
  | get name | unset name =>
      rw [execute] at h
      split at h <;> cases h
      rfl
  | jump address | call address =>
      rw [execute, jump] at h
      split at h <;> cases h
  | ret =>
      rw [execute] at h
      split at h <;> cases h
  | arith op =>
      rw [execute, arithmetic] at h
      split at h <;> cases h
  | push value => cases h
  | pop | set name =>
      rw [execute, takeOperand] at h
      split at h <;> cases h
  | interrupt id =>
      rw [execute] at h
      split at h
      · rw [takeOperand] at h
        split at h <;> cases h
      · cases h

theorem step_unbound (h : (m.step code).2 = .faulted ⟨offset, .unbound hash⟩) :
    offset = m.ip ∧ ∃ i, Instruction.decode code offset = .ok i ∧ i.name? = some hash := by
  rw [step] at h
  split at h
  · cases h
  · split at h
    · cases h
    · next i hdecode =>
        split at h
        · next hexecute =>
            cases h
            exact ⟨rfl, i, hdecode, name?_of_unbound (congrArg Prod.snd hexecute)⟩
        · dsimp only at h
          split at h <;> cases h

theorem run_unbound {limit : Nat} (hcode : SelfContained code) (hm : m.OnBoundaries code)
    (h : m.run code limit = (m', .faulted ⟨offset, .unbound hash⟩)) :
    Boundary code offset ∧
      ∃ i, Instruction.decode code offset = .ok i ∧ i.name? = some hash := by
  induction limit generalizing m with
  | zero => cases h
  | succ limit ih =>
      rw [run] at h
      split at h
      · next m₁ hstep =>
          apply ih _ h
          have hstays := (step_stays hcode hm).1
          rwa [hstep] at hstays
      · obtain ⟨rfl, hinstruction⟩ := step_unbound (congrArg Prod.snd h)
        exact ⟨hm.ip, hinstruction⟩

end Machine

namespace Assembly

variable {image : Image} {items : List Item} {start stop offset : Nat} {c : Command}
  {i : Instruction} {prints : Bool} {hash : UInt64}

theorem Laid.exists_command (h : Laid image start items stop)
    (hstop : stop = image.bytecode.length)
    (hmem : (offset, i) ∈ (instructionsFrom start (image.bytecode.drop start)).1) :
    ∃ before c after, items = before ++ .command c :: after ∧ Laid image start before offset ∧
      Lowers image c i := by
  induction h with
  | nil stop =>
      rw [hstop, List.drop_length, instructionsFrom] at hmem
      cases hmem
  | label hname rest ih =>
      obtain ⟨before, c, after, rfl, hbefore, hlowers⟩ := ih hstop hmem
      exact ⟨_ :: before, c, after, rfl, .label hname hbefore, hlowers⟩
  | command hlowers hdecode rest ih =>
      rw [instructionsFrom_of_decode hdecode] at hmem
      rcases List.mem_cons.1 hmem with hfirst | hlater
      · cases hfirst
        exact ⟨[], _, _, rfl, .nil _, hlowers⟩
      · obtain ⟨before, c, after, rfl, hbefore, hlowers'⟩ := ih hstop hlater
        exact ⟨_ :: before, c, after, rfl, .command hlowers hdecode hbefore, hlowers'⟩

theorem Lowers.encodedLength_eq (hprint : prints = true ↔ image.labels.lookup printName ≠ none)
    (h : Lowers image c i) : i.encodedLength = c.codeLength prints := by
  cases h with
  | @call target address haddress =>
      have hcall : ¬ ((.call target : Command) = .call printName ∧ prints = false) := by
        rintro ⟨heq, hprints⟩
        cases heq
        rw [hprint.2 (by simp [haddress])] at hprints
        cases hprints
      rw [Command.codeLength, if_neg hcall]
      rfl
  | callPrint hnone =>
      have hprints : prints = false := by
        rw [← Bool.not_eq_true, hprint]
        exact not_not_intro hnone
      rw [Command.codeLength, if_pos ⟨rfl, hprints⟩]
      rfl
  | _ =>
      rw [Command.codeLength_of_ne (by simp)]
      rfl

theorem Laid.stop_eq_add (hprint : prints = true ↔ image.labels.lookup printName ≠ none)
    (h : Laid image start items stop) : stop = start + codeLength prints items := by
  induction h with
  | nil => rfl
  | label _ _ ih => exact ih
  | @command c i offset items stop hlowers _ _ ih =>
      rw [ih, codeLength_command, hlowers.encodedLength_eq hprint, Nat.add_assoc]

theorem Lowers.name?_eq (h : Lowers image c i) (hi : i.name? = some hash) :
    ∃ name, c.name? = some name ∧ nameHash name = hash ∧
      image.names.lookup hash = some name := by
  cases h with
  | set hname | get hname | unset hname =>
      cases hi
      exact ⟨_, rfl, rfl, hname⟩
  | _ => cases hi

/-- The instruction at an offset of an image is about a variable, and the command that it was made
of is the one with so many bytes before it. -/
structure Refers (image : Image) (located : List (Located Item)) (offset : Nat) (name : String) :
    Prop where
  decoded : ∃ i, Instruction.decode image.bytecode offset = .ok i ∧ i.name? = some (nameHash name)
  written : ∃ before c after, located.map (·.val) = before ++ .command c :: after ∧
    codeLength (definesPrint (entriesOf located)) before = offset ∧ c.name? = some name

theorem refers_of_unbound {located : List (Located Item)} {limit : Nat} {m : Machine}
    (h : Image.ofEntries nameHash (entriesOf located) = .ok image)
    (hrun : Machine.run image.bytecode limit .initial = (m, .faulted ⟨offset, .unbound hash⟩)) :
    ∃ name, Refers image located offset name ∧ nameHash name = hash ∧
      image.names.lookup hash = some name := by
  have hcode := selfContained_of_ofEntries h
  have hlaid := laid_of_ofEntries h
  have hprint := definesPrint_iff_lookup (labels_of_ofEntries h)
  obtain ⟨hboundary, i, hdecode, hi⟩ :=
    Machine.run_unbound hcode (Machine.initial_onBoundaries hcode) hrun
  obtain ⟨i', hmem, hdecode', -⟩ :=
    hcode.exists_of_boundary hboundary (Instruction.lt_length_of_decode hdecode)
  obtain rfl : i = i' := Except.ok.inj (hdecode.symm.trans hdecode')
  obtain ⟨before, c, after, hitems, hbefore, hlowers⟩ := hlaid.exists_command rfl hmem
  obtain ⟨name, hname, rfl, hlookup⟩ := hlowers.name?_eq hi
  have hoffset := hbefore.stop_eq_add hprint
  rw [Nat.zero_add] at hoffset
  exact ⟨name, ⟨⟨i, hdecode, hi⟩, ⟨before, c, after, hitems, hoffset.symm, hname⟩⟩, rfl, hlookup⟩

end Assembly

/-- Endings that are the same, but for what shows a variable that is not found: its name in the one,
and in the other its hash. -/
inductive Ending.Alike (IsAt : Nat → String → Prop) : Ending → Ending → Prop
  | running : Alike IsAt .running .running
  | halted : Alike IsAt .halted .halted
  | same {offset complaint} (h : ∀ shown, complaint ≠ .variableNotFound shown) :
      Alike IsAt (.faulted offset complaint) (.faulted offset complaint)
  | notFound {offset name shown} (hname : IsAt offset name)
      (hshown : shown.toList = '#' :: Text.hexDigits 16 (nameHash name).toNat) :
      Alike IsAt (.faulted offset (.variableNotFound name))
        (.faulted offset (.variableNotFound shown))

/-- What is told of a machine that was run. -/
inductive Run.Tells : Run → NamingMachine × Ending → Prop
  | finished (m) : Tells ⟨m.printed, .finished⟩ (m, .halted)
  | unfinished (m) : Tells ⟨m.printed, .unfinished⟩ (m, .running)
  | failed (m names fault) : Tells ⟨m.printed, .failed (.fault names fault)⟩
      (m, .faulted fault.offset (fault.cause.shownBy names))

theorem Machine.Status.shownBy_alike {IsAt : Nat → String → Prop} {names : Names}
    {status : Machine.Status}
    (h : ∀ offset hash, status = .faulted ⟨offset, .unbound hash⟩ → ∃ name, IsAt offset name ∧
      nameHash name = hash ∧ names.lookup hash = some name) :
    Ending.Alike IsAt (status.shownBy names) (status.shownBy []) := by
  cases status with
  | running => exact .running
  | halted => exact .halted
  | faulted fault =>
      obtain ⟨offset, cause⟩ := fault
      cases cause with
      | unbound hash =>
          obtain ⟨name, hname, rfl, hlookup⟩ := h offset hash rfl
          have hshown : (FaultCause.unbound (nameHash name)).shownBy names =
              .variableNotFound name := congrArg _ (Names.describe_of_lookup hlookup)
          rw [shownBy, hshown]
          exact .notFound hname (Text.toList_hashName _)
      | _ => exact .same (by rintro shown ⟨⟩)

theorem Toolchain.runCode_tells {names names' : Names} (h : names.describe = names'.describe)
    (limit : Nat) (code : List UInt8) :
    (runCode limit names code).Tells (NamingMachine.run code limit ⟨.initial, names'⟩) := by
  rw [runCode, NamingMachine.run_eq]
  obtain ⟨m, status⟩ := Machine.initial.run code limit
  rw [← status.shownBy_congr h]
  cases status with
  | running => exact .unfinished ⟨m, names'⟩
  | halted => exact .finished ⟨m, names'⟩
  | faulted fault => exact .failed ⟨m, names'⟩ names fault

namespace NamingMachine

/-- The names of an image are those of its variables, each at its hash. A machine that has them runs
like one that has none: it takes the same steps, prints the same and ends the same way, and only
shows a variable that is not found by the name that the instruction was written with, not by the
hash. What the toolchain tells of an image and of bare code is what these two machines do. -/
theorem names_change_what_is_shown {text : List Char} {image : Assembly.Image}
    (h : Assembly.assemble text = .ok image) :
    ∃ located, Assembly.entries (Assembly.tokens text) = .ok (Assembly.entriesOf located) ∧
      image.names.Holds nameHash (Assembly.variableNames (located.map (·.val))) ∧
      (∀ n, (after image.bytecode n (start (image.names.map Prod.snd))).toMachine =
        (after image.bytecode n (start [])).toMachine) ∧
      ∀ limit,
        let named := run image.bytecode limit (start (image.names.map Prod.snd))
        let bare := run image.bytecode limit (start [])
        named.1.toMachine = bare.1.toMachine ∧
        Ending.Alike (Assembly.Refers image located) named.2 bare.2 ∧
        (Toolchain.runImage limit image).Tells named ∧
        (Toolchain.runCode limit [] image.bytecode).Tells bare := by
  obtain ⟨located, hreads, hofEntries⟩ := Assembly.assembleWith_ok h
  have hholds := Assembly.holds_of_ofEntries hofEntries
  have hdescribe := hholds.describe_ofList
  refine ⟨located, Assembly.entries_of_reads hreads, hholds, fun n => ?_,
    fun limit => ⟨?_, ?_, ?_, ?_⟩⟩
  · rw [start, start, after_eq, after_eq]
  · rw [start, start, run_eq, run_eq]
  · rw [start, start, run_eq, run_eq, Machine.Status.shownBy_congr hdescribe]
    apply Machine.Status.shownBy_alike
    intro offset hash hstatus
    exact Assembly.refers_of_unbound hofEntries (Prod.ext rfl hstatus)
  · exact Toolchain.runCode_tells hdescribe.symm limit image.bytecode
  · exact Toolchain.runCode_tells rfl limit image.bytecode

/-- A unit that gets a variable which is never set. -/
def lonelyGet : List Char := "push 1 get nothing".toList

theorem lonely_get_is_named : ∃ image, Assembly.assemble lonelyGet = .ok image ∧
    (run image.bytecode 2 (start (image.names.map Prod.snd))).2 =
      .faulted 9 (.variableNotFound "nothing") ∧
    ∃ shown, (run image.bytecode 2 (start [])).2 = .faulted 9 (.variableNotFound shown) ∧
      shown.toList = '#' :: Text.hexDigits 16 (nameHash "nothing").toNat := by
  obtain ⟨image, himage, hrun⟩ := exists_of_any (by decide +kernel :
    (Assembly.assemble lonelyGet).toOption.any (fun image =>
      (run image.bytecode 2 (start (image.names.map Prod.snd))).2 =
        .faulted 9 (.variableNotFound "nothing")) = true)
  have hnamed := of_decide_eq_true hrun
  obtain ⟨located, -, -, -, hruns⟩ := names_change_what_is_shown himage
  obtain ⟨-, halike, -, -⟩ := hruns 2
  rw [hnamed] at halike
  refine ⟨image, himage, hnamed, ?_⟩
  generalize (run image.bytecode 2 (start [])).2 = bare at halike ⊢
  cases halike with
  | same hother => exact absurd rfl (hother "nothing")
  | notFound hname hshown => exact ⟨_, rfl, hshown⟩

end NamingMachine

end StackCalc
