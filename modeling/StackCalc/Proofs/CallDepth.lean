import StackCalc.Proofs.Correctness
import StackCalc.Proofs.StaticErrors

/-!
# Programs that run to their end, interpreted

Interpreting a program stops where calls nest deeper than a fixed limit, and running its code does
not. So a program whose code runs to its end is interpreted to its end if its calls nest inside
the limit, and else is stopped after a part of what it prints. Since nothing chooses what is
called, calls that come to an end nest inside as many levels as there are definitions: no program
with as many definitions as the limit allows, or fewer, is stopped.
-/

namespace StackCalc

open Assembly Source

namespace Machine

variable {m m' : Machine} {fault : Option FaultCause}

theorem printed_of_execute {size : Nat} {i : Instruction}
    (h : execute size m i = (m', fault)) : m.printed.toList <+: m'.printed.toList := by
  cases i with
  | jump address | call address =>
      rw [execute, jump] at h
      split at h <;> cases h <;> exact List.prefix_rfl
  | ret =>
      rw [execute] at h
      split at h <;> cases h <;> exact List.prefix_rfl
  | arith op =>
      rw [execute, arithmetic] at h
      split at h <;> cases h <;> exact List.prefix_rfl
  | push value =>
      cases h
      exact List.prefix_rfl
  | pop | set hash =>
      rw [execute, takeOperand] at h
      split at h <;> cases h <;> exact List.prefix_rfl
  | get hash | unset hash =>
      rw [execute] at h
      split at h <;> cases h <;> exact List.prefix_rfl
  | interrupt id =>
      rw [execute] at h
      split at h
      · rw [takeOperand] at h
        split at h
        · cases h
          rw [Array.toList_push]
          exact List.prefix_append _ _
        · cases h
          exact List.prefix_rfl
      · cases h
        exact List.prefix_rfl

theorem printed_step (code : List UInt8) (m : Machine) :
    m.printed.toList <+: (m.step code).1.printed.toList := by
  unfold step
  dsimp only
  split
  · exact List.prefix_rfl
  · split
    · exact List.prefix_rfl
    · next i _ =>
      cases hexecute : execute code.length { m with ip := m.ip + i.encodedLength } i with
      | mk m' fault =>
          have hprinted := printed_of_execute hexecute
          cases fault <;> exact hprinted

theorem printed_after (code : List UInt8) (n : Nat) (m : Machine) :
    m.printed.toList <+: (after code n m).printed.toList := by
  induction n generalizing m with
  | zero => exact List.prefix_rfl
  | succ n ih => exact (printed_step code m).trans (ih _)

/-- On the way to the end of the code nothing is printed that is not printed at the end. -/
theorem Path.printed_isPrefix {code : List UInt8} {m₁ m₂ : Machine}
    {passed₁ passed₂ : List Machine} (h₁ : Path code m passed₁ m₁) (h₂ : Path code m passed₂ m₂)
    (hend : code.length ≤ m₂.ip) : m₁.printed.toList <+: m₂.printed.toList := by
  rcases Nat.le_total passed₁.length passed₂.length with hle | hle
  · obtain ⟨k, hk⟩ := Nat.exists_eq_add_of_le hle
    rw [← h₂.after.2, hk, after_add, h₁.after.2]
    exact printed_after code k m₁
  · obtain ⟨k, hk⟩ := Nat.exists_eq_add_of_le hle
    have hsame : m₁ = m₂ := by
      rw [← h₁.after.2, hk, after_add, h₂.after.2, after_of_end hend]
    exact hsame ▸ List.prefix_rfl

end Machine

namespace Toolchain

variable {limit : Nat} {source : String} {printed : Array Number}

theorem execute_finished_iff : (execute limit source).run = ⟨printed, .finished⟩ ↔
    ∃ asm image m, compile source = .ok asm ∧ assemble asm = .ok image ∧
      Machine.run image.bytecode limit .initial = (m, .halted) ∧ m.printed = printed := by
  constructor
  · intro h
    unfold execute at h
    split at h
    · cases h
    · next asm hcompile =>
      split at h
      · cases h
      · next image hassemble =>
        dsimp only [runImage] at h
        unfold runCode at h
        split at h
        · next m hrun =>
            cases h
            exact ⟨asm, image, m, hcompile, hassemble, hrun, rfl⟩
        · cases h
        · cases h
  · rintro ⟨asm, image, m, hcompile, hassemble, hrun, rfl⟩
    simp only [execute, hcompile, hassemble, runImage, runCode, hrun]

theorem interpret_of_parse {program : Program} (h : parse source = .ok program) :
    interpret source = match Session.empty.evaluate program with
      | (session, .ok ()) => ⟨session.printed, .finished⟩
      | (session, .error e) => ⟨session.printed, .failed (.evaluate e)⟩ := by
  unfold interpret interpretIn
  rw [h]
  dsimp only
  rcases Session.empty.evaluate program with ⟨session, _ | _⟩ <;> rfl

end Toolchain

namespace Source.Program.Builds

variable {program : Program} {image : Image} {n : Nat} {m : Machine}

/-- The evaluation of a program whose code halts ends with what the code prints if the calls of the
program nest inside the limit, and stops after a part of that if not. -/
theorem evaluate_of_run (h : program.Builds image)
    (hrun : Machine.run image.bytecode n .initial = (m, .halted)) :
    (∃ session, Session.empty.evaluate program = (session, .ok ()) ∧
      session.printed = m.printed ∧ program.nests maxCallDepth = true) ∨
    ∃ session span, Session.empty.evaluate program = (session, .error ⟨.tooDeep, span⟩) ∧
      session.printed.toList <+: m.printed.toList ∧ program.nests maxCallDepth = false := by
  obtain ⟨asm, hasm, -⟩ := h.assembled
  obtain ⟨compiled, hcompiled⟩ := statements_of_assembly hasm
  have hagrees := evaluation_agrees h.words (Compile.failsInBody_of_ok hcompiled) maxCallDepth
  obtain ⟨_, _, passed, -, hpath, hended⟩ := h.ended hrun
  have hfollows := h.follows maxCallDepth
  unfold Session.evaluate
  cases hresult : Evaluate.statements (Evaluate.invokeWithin maxCallDepth) program
      ⟨.topLevel, .empty⟩ with
  | ok returned a =>
      rw [hresult] at hagrees hfollows
      obtain ⟨hnests, -⟩ := hagrees
      obtain ⟨passed', m', hpassed', hended'⟩ := hfollows
      obtain ⟨rfl, -⟩ := hpassed'.1.sets_of_run_halted [] hended'.ip.ge hrun
      exact .inl ⟨a.session, rfl, hended'.printed.symm, List.all_eq_true.2 hnests⟩
  | error e a =>
      rw [hresult, hcompiled] at hagrees
      rw [hresult] at hfollows
      rcases hagrees with ⟨hdeep, g, hg, hnot⟩ | ⟨refusal, hrefusal, -⟩
      · obtain ⟨-, passed', m', hpassed', -, hprinted, -⟩ := hfollows
        have hprefix := hpassed'.1.printed_isPrefix hpath hended.ip.ge
        rw [hprinted] at hprefix
        have hnests : program.nests maxCallDepth = false := List.all_eq_false.2 ⟨g, hg, hnot⟩
        exact .inr ⟨a.session, e.span, by rw [← hdeep], hprefix, hnests⟩
      · cases hrefusal

theorem nests_of_run (h : program.Builds image)
    (hrun : Machine.run image.bytecode n .initial = (m, .halted)) :
    program.nests program.definitions.length = true := by
  obtain ⟨asm, hasm, -⟩ := h.assembled
  obtain ⟨compiled, hcompiled⟩ := statements_of_assembly hasm
  have hagrees := evaluation_agrees h.words (Compile.failsInBody_of_ok hcompiled) n
  obtain ⟨_, _, _, heval, -, -⟩ := h.ended hrun
  rw [heval] at hagrees
  exact nests_definitions (List.all_eq_true.2 hagrees.1)

end Source.Program.Builds

namespace Toolchain

variable {limit : Nat} {source : String} {printed : Array Number}

/-- What interpreting does with a program whose code runs to its end. -/
theorem interpret_of_execute (h : (execute limit source).run = ⟨printed, .finished⟩) :
    ∃ program, parse source = .ok program ∧
      (program.nests maxCallDepth = true → interpret source = ⟨printed, .finished⟩) ∧
      (program.nests maxCallDepth = false → ∃ shown span, shown.toList <+: printed.toList ∧
        interpret source = ⟨shown, .failed (.evaluate ⟨.tooDeep, span⟩)⟩) ∧
      (program.definitions.length ≤ maxCallDepth → program.nests maxCallDepth = true) := by
  obtain ⟨asm, image, m, hcompile, hassemble, hrun, rfl⟩ := execute_finished_iff.1 h
  obtain ⟨program, hparse, hbuilds⟩ := builds_of_compile hcompile hassemble
  refine ⟨program, hparse, ?_, ?_, fun hle => ?_⟩
  · intro hnests
    rw [interpret_of_parse hparse]
    obtain ⟨session, heval, hprinted, -⟩ | ⟨_, _, -, -, hnot⟩ := hbuilds.evaluate_of_run hrun
    · rw [heval, ← hprinted]
    · rw [hnests] at hnot
      cases hnot
  · intro hnot
    rw [interpret_of_parse hparse]
    obtain ⟨_, -, -, hnests⟩ | ⟨session, span, heval, hprinted, -⟩ := hbuilds.evaluate_of_run hrun
    · rw [hnests] at hnot
      cases hnot
    · rw [heval]
      exact ⟨session.printed, span, hprinted, rfl⟩
  · have hnests := hbuilds.nests_of_run hrun
    rw [Program.nests, List.all_eq_true] at hnests ⊢
    exact fun g hg => Closure.nests_mono (hnests g hg) hle

def printedCall : String := "def f() { return 7; } print(f());"

theorem printed_call_interpreted : (execute 5 printedCall).run = ⟨#[Number.read ['7']], .finished⟩ ∧
    interpret printedCall = ⟨#[Number.read ['7']], .finished⟩ := by
  obtain ⟨image, hbuilt, hruns⟩ := exists_of_any (by decide +kernel :
    (compile printedCall >>= assemble).toOption.any (fun image : Image =>
      decide ((Machine.run image.bytecode 5 .initial).2 = .halted) &&
      decide ((Machine.run image.bytecode 5 .initial).1.printed = #[Number.read ['7']])) = true)
  simp only [Bool.and_eq_true, decide_eq_true_eq] at hruns
  obtain ⟨asm, hcompile, hassemble⟩ := bind_eq_ok_iff.1 hbuilt
  have hexecute : (execute 5 printedCall).run = ⟨#[Number.read ['7']], .finished⟩ :=
    execute_finished_iff.2
      ⟨asm, image, _, hcompile, hassemble, Prod.ext rfl hruns.1, hruns.2⟩
  obtain ⟨program, hparse, hinterpret, -, hnests⟩ := interpret_of_execute hexecute
  have hdefs : (parse printedCall).toOption.map (fun program =>
      program.definitions.length) = some 1 := by decide +kernel
  rw [hparse] at hdefs
  have hle : program.definitions.length ≤ maxCallDepth :=
    (Option.some.inj hdefs).trans_le (by decide)
  exact ⟨hexecute, hinterpret (hnests hle)⟩

end Toolchain

end StackCalc
