import StackCalc.Proofs.Calls
import StackCalc.Proofs.Labels

/-!
# Compiled programs run as they are evaluated

The code of a program prints what evaluation prints, as far as evaluation gets: to the end of the
program or to the limit of calls. And it never faults, which is the same simulation once more,
with a limit of calls that no given number of steps exceeds.
-/

namespace StackCalc

open Assembly Source

/-- The program is over identifiers and finite numbers, and its assembly assembles to an image. -/
structure Source.Program.Builds (program : Program) (image : Image) : Prop where
  words : program.Over IsIdentifier (fun value => value.isFinite = true)
  assembled : ∃ asm, program.assembly = .ok asm ∧ Assembly.assemble asm.toList = .ok image

/-- The machine at the end of a program, which has bound what the program assigns to and nothing
besides. -/
structure Source.Program.Ended (program : Program) (image : Image) (printed : Array Number)
    (passed : List Machine) (m : Machine) : Prop where
  ip : m.ip = image.bytecode.length
  operands : m.operands = []
  returns : m.returns = []
  printed : m.printed = printed
  bound : m.bindings =
    Bindings.pushAll ∅ (passed.filterMap (·.setAt? image.bytecode [])).reverse
  sets : (passed.filterMap (·.setAt? image.bytecode [])).map Prod.fst =
    (assigned [] program).map fun x => nameHash x.qualified

namespace Source.Program.Builds

variable {program : Program} {image : Image}

theorem items (h : program.Builds image) :
    ∃ lines located, program.compile = .ok lines ∧
      Image.ofEntries nameHash (entriesOf located) = .ok image ∧
      located.map (·.val) = Line.items lines := by
  obtain ⟨asm, hasm, himage⟩ := h.assembled
  obtain ⟨lines, located, hlines, hreads, hvals⟩ := program.items_of_assembly h.words hasm
  rw [Assembly.assemble, assembleWith_of_reads hreads] at himage
  exact ⟨lines, located, hlines, himage, hvals⟩

theorem laid (h : program.Builds image) :
    ∃ lines last, Compile.statements .empty program = .ok (lines, last) ∧
      Laid image 0 (Line.items lines) image.bytecode.length := by
  obtain ⟨lines, located, hlines, hofEntries, hvals⟩ := h.items
  obtain ⟨⟨lines', last⟩, hstatements, hlines⟩ := bind_eq_ok_iff.1 hlines
  cases hlines
  exact ⟨lines', last, hstatements, hvals ▸ laid_of_ofEntries hofEntries⟩

theorem follows (h : program.Builds image) (depth : Nat) :
    Follows image.bytecode (·.session.printed) (Within image program.definitions []) depth
      .initial (fun _ a passed m => program.Ended image a.session.printed passed m)
      (Evaluate.statements (Evaluate.invokeWithin depth) program ⟨.topLevel, .empty⟩) := by
  obtain ⟨lines, last, hlines, hlaid⟩ := h.laid
  have hrunning : Running image program.definitions .empty ⟨.topLevel, .empty⟩ .initial ∅ ∅ := by
    refine ⟨⟨.topLevel, nofun, nofun, .initial⟩, Bindings.proper_empty, Bindings.proper_empty,
      ⟨[], rfl, rfl⟩, ⟨[], rfl, rfl⟩⟩
  have hfollows := statements_follow (invokeWithin_follows image program.definitions depth)
    hrunning (fun hdepth => absurd rfl hdepth) hlines hlaid (Nat.le_refl _)
    (List.Subset.refl _)
  refine hfollows.imp (fun _ hp => hp) ?_
  rintro (_ | value) a passed m - hends
  · obtain ⟨hrunning', hip, hoperands, hreturns, hbound, hsets⟩ := hends
    exact ⟨hip, hoperands, hreturns, hrunning'.world.printed, hbound, hsets⟩
  · exact absurd rfl hends.depth

theorem reached (h : program.Builds image) (n : Nat) :
    (Within image program.definitions [] (Machine.after image.bytecode n .initial) ∧
      ∃ m, (Machine.after image.bytecode n .initial).Moves image.bytecode m) ∨
    (Machine.after image.bytecode n .initial).ip = image.bytecode.length := by
  have hinside : ∀ passed m, Machine.initial.Passes image.bytecode
      (Within image program.definitions []) passed m → n < passed.length →
      Within image program.definitions [] (Machine.after image.bytecode n .initial) ∧
        ∃ m, (Machine.after image.bytecode n .initial).Moves image.bytecode m := by
    intro passed m hpassed hlt
    have hmem : Machine.after image.bytecode n .initial ∈ passed := by
      rw [hpassed.1.after.1]
      exact Machine.after_mem_states hlt _
    exact ⟨hpassed.2 _ hmem, hpassed.1.moves _ hmem⟩
  -- evaluation that makes more calls than `n` inside one another is followed for longer than `n`
  have hfollows := h.follows (n + 1)
  cases hresult : Evaluate.statements (Evaluate.invokeWithin (n + 1)) program
      ⟨.topLevel, .empty⟩ with
  | ok r a =>
      rw [hresult] at hfollows
      obtain ⟨passed, m, hpassed, hended⟩ := hfollows
      by_cases hlt : n < passed.length
      · exact .inl (hinside passed m hpassed hlt)
      · obtain ⟨k, rfl⟩ := Nat.exists_eq_add_of_le (Nat.le_of_not_lt hlt)
        rw [Machine.after_add, hpassed.1.after.2, Machine.after_of_end hended.ip.ge]
        exact .inr hended.ip
  | error e a =>
      rw [hresult] at hfollows
      obtain ⟨-, passed, m, hpassed, hlength, -⟩ := hfollows
      exact .inl (hinside passed m hpassed hlength)

/-- A run that halts has gone a path to the end of the program, whose evaluation is over with no
more calls inside one another than the run had steps. -/
theorem ended (h : program.Builds image) {n : Nat} {m : Machine}
    (hrun : Machine.run image.bytecode n .initial = (m, .halted)) :
    ∃ r a passed,
      Evaluate.statements (Evaluate.invokeWithin n) program ⟨.topLevel, .empty⟩ = .ok r a ∧
      Machine.Path image.bytecode .initial passed m ∧
      program.Ended image a.session.printed passed m := by
  have hfollows := h.follows n
  cases hresult : Evaluate.statements (Evaluate.invokeWithin n) program ⟨.topLevel, .empty⟩ with
  | error e a =>
      rw [hresult] at hfollows
      obtain ⟨-, passed, m', hpassed, hlength, -, hinside⟩ := hfollows
      -- the machine has halted, but it was to be on its way for at least as long
      have hlong := Machine.run_mono hrun hlength
      rw [hpassed.1.run_running hinside] at hlong
      cases hlong
  | ok r a =>
      rw [hresult] at hfollows
      obtain ⟨passed, m', hpassed, hended⟩ := hfollows
      obtain ⟨rfl, -⟩ := hpassed.1.sets_of_run_halted [] hended.ip.ge hrun
      exact ⟨r, a, passed, rfl, hpassed.1, hended⟩

end Source.Program.Builds

/-- What a program prints when it is evaluated, its code prints, in the same order: all of it if
the program ends, and as much if it calls too deep. -/
theorem run_prints_evaluated {program : Program} {asm : String} {image : Image}
    {session : Session} {result : Except (Located EvalError) Unit}
    (hover : program.Over IsIdentifier (fun value => value.isFinite = true))
    (hasm : program.assembly = .ok asm) (himage : Assembly.assemble asm.toList = .ok image)
    (heval : Session.empty.evaluate program = (session, result)) :
    (result = .ok () → ∃ n m, Machine.run image.bytecode n .initial = (m, .halted) ∧
      m.printed = session.printed) ∧
    (∀ span, result = .error ⟨.tooDeep, span⟩ →
      ∃ n m, Machine.run image.bytecode n .initial = (m, .running) ∧
        m.printed = session.printed) := by
  have hbuilds : program.Builds image := ⟨hover, asm, hasm, himage⟩
  have hfollows := hbuilds.follows maxCallDepth
  unfold Session.evaluate at heval
  cases hresult : Evaluate.statements (Evaluate.invokeWithin maxCallDepth) program
      ⟨.topLevel, .empty⟩ with
  | ok r a =>
      rw [hresult] at hfollows heval
      obtain ⟨rfl, rfl⟩ := Prod.mk.inj heval
      obtain ⟨passed, m, hpassed, hended⟩ := hfollows
      refine ⟨fun _ => ⟨_, m, hpassed.1.run_halted hended.ip.ge, hended.printed⟩, ?_⟩
      intro span herror
      cases herror
  | error e a =>
      rw [hresult] at hfollows heval
      obtain ⟨rfl, rfl⟩ := Prod.mk.inj heval
      obtain ⟨-, passed, m, hpassed, -, hprinted, hinside⟩ := hfollows
      refine ⟨fun hok => ?_, ?_⟩
      · cases hok
      intro span _
      exact ⟨_, m, hpassed.1.run_running hinside, hprinted⟩

/-- The program `def f(x) { return x + x; } print(f(2));`. -/
def Source.doubled : Program :=
  [.define ⟨"f", 4, 5⟩ [⟨"x", 6, 7⟩]
      [.giveBack (.binary .add (.variable ⟨"x", 18, 19⟩) (.variable ⟨"x", 22, 23⟩)) ⟨11, 24⟩],
    .eval (.call ⟨"print", 27, 32⟩ [.call ⟨"f", 33, 34⟩ [.number (Number.read ['2'])]])]

theorem over_doubled : doubled.Over IsIdentifier (fun value => value.isFinite = true) := by
  have hf : IsIdentifier "f" := ⟨'f', [], by decide, by decide, by simp⟩
  have hx : IsIdentifier "x" := ⟨'x', [], by decide, by decide, by simp⟩
  have hprint : IsIdentifier "print" :=
    ⟨'p', "rint".toList, by decide, by decide, List.all_eq_true.1 rfl⟩
  have htwo : (Number.read ['2']).isFinite = true := by decide +kernel
  simp [doubled, Program.Over, Stmt.AllOver, Stmt.Over, Expr.Over, Expr.AllOver, hf, hx, hprint,
    htwo]

theorem doubled_prints_four : ∃ asm image n m, doubled.assembly = .ok asm ∧
    Assembly.assemble asm.toList = .ok image ∧
    Machine.run image.bytecode n .initial = (m, .halted) ∧ m.printed = #[Number.read ['4']] := by
  obtain ⟨image, hbuilt⟩ := exists_of_isOk (by decide +kernel :
    (doubled.assembly.mapError Failure.compile >>= Toolchain.assemble).isOk = true)
  obtain ⟨asm, hasm, himage⟩ := bind_eq_ok_iff.1 hbuilt
  have hasm := mapError_eq_ok_iff.1 hasm
  have himage := mapError_eq_ok_iff.1 himage
  have hok : (Session.empty.evaluate doubled).2 = .ok () := by
    obtain ⟨⟨⟩, hok⟩ := exists_of_isOk (by decide +kernel :
      (Session.empty.evaluate doubled).2.isOk = true)
    exact hok
  have hfour : (Session.empty.evaluate doubled).1.printed = #[Number.read ['4']] := by
    decide +kernel
  obtain ⟨n, m, hrun, hprinted⟩ :=
    (run_prints_evaluated over_doubled hasm himage rfl).1 hok
  exact ⟨asm, image, n, m, hasm, himage, hrun, hprinted.trans hfour⟩

namespace Toolchain

theorem builds_of_compile {source asm : String} {image : Image}
    (hcompile : compile source = .ok asm) (hassemble : assemble asm = .ok image) :
    ∃ program, parse source = .ok program ∧ program.Builds image := by
  obtain ⟨program, hprogram, hasm⟩ := compile_ok hcompile
  exact ⟨program, hprogram, over_of_parse hprogram, asm, hasm, mapError_eq_ok_iff.1 hassemble⟩

theorem compiled_never_faults {source asm : String} {image : Image}
    (hcompile : compile source = .ok asm) (hassemble : assemble asm = .ok image) (n : Nat)
    (fault : Fault) :
    ((Machine.after image.bytecode n .initial).step image.bytecode).2 ≠ .faulted fault := by
  obtain ⟨program, -, hbuilds⟩ := builds_of_compile hcompile hassemble
  rcases hbuilds.reached n with ⟨-, m, hmove⟩ | hend
  · rw [hmove.step]
    split
    · intro hfault
      cases hfault
    · intro hfault
      cases hfault
  · rw [Machine.step_of_end hend.ge]
    intro hfault
    cases hfault

theorem endless_call_never_faults : ∃ asm image,
    compile "def f(x) { return f(x + 1); } f(0);" = .ok asm ∧ assemble asm = .ok image ∧
    ∀ n fault,
      ((Machine.after image.bytecode n .initial).step image.bytecode).2 ≠ .faulted fault := by
  obtain ⟨image, hbuilt⟩ := exists_of_isOk (by decide +kernel :
    (compile "def f(x) { return f(x + 1); } f(0);" >>= assemble).isOk = true)
  obtain ⟨asm, hcompile, hassemble⟩ := bind_eq_ok_iff.1 hbuilt
  exact ⟨asm, image, hcompile, hassemble, compiled_never_faults hcompile hassemble⟩

end Toolchain

end StackCalc
