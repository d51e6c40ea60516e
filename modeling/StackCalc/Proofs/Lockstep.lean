import StackCalc.Proofs.Boundaries
import StackCalc.Proofs.Extension
import StackCalc.Proofs.Reentry
import StackCalc.Proofs.RenamedCode

/-!
# Renamed programs run

The code of a renamed program has the same instructions at the same offsets, except that variables
go by the hashes of the renamed names. Each image knows its names apart by their hashes, so two
machines that run the two codes read and write the same values, and stay abreast for good.
-/

namespace StackCalc

open Assembly Source

/-- Instructions that are not about variables do the same whatever is bound, and leave it bound. -/
theorem Machine.execute_bindings {i : Instruction} (hi : i.name? = none) (size : Nat)
    (m : Machine) (b : Bindings UInt64 Number) : execute size { m with bindings := b } i =
      ({ (execute size m i).1 with bindings := b }, (execute size m i).2) := by
  obtain ⟨ip, operands, returns, bindings, printed⟩ := m
  cases i with
  | jump address | call address =>
      simp only [execute, jump]
      split <;> rfl
  | ret => cases returns <;> rfl
  | arith op =>
      rcases operands with _ | ⟨lhs, _ | ⟨rhs, rest⟩⟩ <;> rfl
  | push value => rfl
  | pop => cases operands <;> rfl
  | interrupt id =>
      simp only [execute]
      split
      · cases operands <;> rfl
      · rfl
  | set hash | get hash | unset hash => cases hi

namespace Renaming

variable (ρ : Renaming)

/-- An instruction of one image and one of another, which are the same except that a variable goes
by the hash of its name in the one and by that of the renamed name in the other. -/
inductive Renames (image image' : Image) : Instruction → Instruction → Prop
  | set {name : String} (h : image.Knows name) (h' : image'.Knows (ρ.qualified name)) :
      Renames image image' (.set (nameHash name)) (.set (nameHash (ρ.qualified name)))
  | get {name : String} (h : image.Knows name) (h' : image'.Knows (ρ.qualified name)) :
      Renames image image' (.get (nameHash name)) (.get (nameHash (ρ.qualified name)))
  | unset {name : String} (h : image.Knows name) (h' : image'.Knows (ρ.qualified name)) :
      Renames image image' (.unset (nameHash name)) (.unset (nameHash (ρ.qualified name)))
  | same {i : Instruction} (h : i.name? = none) : Renames image image' i i

section Images

variable {image image' : Image} {items : List Item} {start stop stop' : Nat}

theorem opcode_command (c : Command) : (ρ.command c).opcode = c.opcode := by
  cases c <;> rfl

theorem commandsOf_item (items : List Item) :
    commandsOf (items.map ρ.item) = (commandsOf items).map ρ.command := by
  induction items with
  | nil => rfl
  | cons i items ih => cases i <;> simp [item, ih]

theorem size_item (items : List Item) : size (items.map ρ.item) = size items := by
  unfold size
  rw [commandsOf_item, List.map_map]
  exact congrArg List.sum (List.map_congr_left fun c _ =>
    congrArg Opcode.encodedLength (ρ.opcode_command c))

theorem items_line (lines : List Line) :
    Line.items (lines.map ρ.line) = (Line.items lines).map ρ.item := by
  induction lines with
  | nil => rfl
  | cons l lines ih => cases l <;> simp [line, ih]

theorem lookup_label (h : Laid image 0 items stop) (h' : Laid image' 0 (items.map ρ.item) stop')
    (hlinks : image.Links items) (hlinks' : image'.Links (items.map ρ.item)) {name : String}
    (hname : name ∈ labelNames items) :
    image'.labels.lookup (ρ.label name) = image.labels.lookup name := by
  obtain ⟨before, after, rfl⟩ := List.append_of_mem (mem_labelNames.1 hname)
  rw [List.map_append, List.map_cons] at h' hlinks'
  obtain ⟨address, haddress, hoffset⟩ :=
    h.address_of_label (hlinks.mono (List.subset_append_left _ _))
  obtain ⟨address', haddress', hoffset'⟩ :=
    h'.address_of_label (hlinks'.mono (List.subset_append_left _ _))
  rw [size_item] at hoffset'
  rw [haddress, haddress', UInt32.toNat_inj.1 (hoffset'.trans hoffset.symm)]

/-- A target of a command has an address, and the renamed target has the same in the other image. -/
def Targets (image image' : Image) (c : Command) : Prop :=
  ∀ target, c = .jump target ∨ c = .call target →
    ∃ address, image.labels.lookup target = some address ∧
      image'.labels.lookup (ρ.label target) = some address

theorem Renames.of_lowers {c : Command} {i i' : Instruction} (htargets : ρ.Targets image image' c)
    (h : Lowers image c i) (h' : Lowers image' (ρ.command c) i') :
    ρ.Renames image image' i i' := by
  cases h with
  | jump hlookup =>
      obtain ⟨address, haddress, haddress'⟩ := htargets _ (.inl rfl)
      cases hlookup.symm.trans haddress
      cases h' with
      | jump hlookup' =>
          cases hlookup'.symm.trans haddress'
          exact .same rfl
  | call hlookup =>
      obtain ⟨address, haddress, haddress'⟩ := htargets _ (.inr rfl)
      cases hlookup.symm.trans haddress
      generalize hcall : ρ.command (.call _) = called at h'
      cases h' with
      | call hlookup' =>
          cases hcall
          cases hlookup'.symm.trans haddress'
          exact .same rfl
      | callPrint hnone =>
          rw [command, Operation.call.injEq] at hcall
          rw [hcall, hnone] at haddress'
          cases haddress'
      | _ => cases hcall
  | callPrint hnone =>
      obtain ⟨address, haddress, -⟩ := htargets _ (.inr rfl)
      cases hnone.symm.trans haddress
  | set hknown => cases h' with | set hknown' => exact .set hknown hknown'
  | get hknown => cases h' with | get hknown' => exact .get hknown hknown'
  | unset hknown => cases h' with | unset hknown' => exact .unset hknown hknown'
  | interrupt hfinite hvalue =>
      cases (@Lowers.interrupt image _ _ hfinite hvalue).interrupt_unique h'
      exact .same rfl
  | ret | arith op | push value | pop =>
      cases h'
      exact .same rfl

theorem Renames.encodedLength_eq {i i' : Instruction} (h : ρ.Renames image image' i i') :
    i'.encodedLength = i.encodedLength := by
  cases h <;> rfl

theorem found_alike (htargets : ∀ c, .command c ∈ items → ρ.Targets image image' c)
    (h : Laid image start items stop) (h' : Laid image' start (items.map ρ.item) stop')
    (hstop : stop = image.bytecode.length) (hstop' : stop' = image'.bytecode.length) :
    stop' = stop ∧ ∃ found found',
      instructionsFrom start (image.bytecode.drop start) = (found, none) ∧
      instructionsFrom start (image'.bytecode.drop start) = (found', none) ∧
      List.Forall₂ (fun x y => y.1 = x.1 ∧ ρ.Renames image image' x.2 y.2) found found' := by
  induction h with
  | nil offset =>
      have hsame := h'.nil_inv
      refine ⟨hsame.symm, [], [], ?_, ?_, .nil⟩
      · rw [hstop, List.drop_length, instructionsFrom]
      · rw [hsame, hstop', List.drop_length, instructionsFrom]
  | label hlabel rest ih =>
      obtain ⟨address, -, -, hrest'⟩ := Laid.label_inv h'
      exact ih (fun c hc => htargets c (List.mem_cons_of_mem _ hc)) hrest' hstop
  | @command c i offset items stop hlowers hdecoded rest ih =>
      obtain ⟨i', hlowers', hdecoded', hrest'⟩ := Laid.command_inv h'
      have hrenames := Renames.of_lowers ρ (htargets c List.mem_cons_self) hlowers hlowers'
      rw [hrenames.encodedLength_eq] at hrest'
      obtain ⟨hsame, found, found', hfound, hfound', hall⟩ :=
        ih (fun c hc => htargets c (List.mem_cons_of_mem _ hc)) hrest' hstop
      refine ⟨hsame, (offset, i) :: found, (offset, i') :: found', ?_, ?_, ?_⟩
      · rw [instructionsFrom_of_decode hdecoded, hfound]
      · rw [instructionsFrom_of_decode hdecoded', hrenames.encodedLength_eq, hfound']
      · exact .cons ⟨rfl, hrenames⟩ hall

end Images

theorem exists_of_forall₂ {α β : Type} {R : α → β → Prop} {xs : List α} {ys : List β}
    (h : List.Forall₂ R xs ys) {x : α} (hx : x ∈ xs) : ∃ y ∈ ys, R x y := by
  induction h with
  | nil => cases hx
  | cons hfirst _ ih =>
      rcases List.mem_cons.1 hx with rfl | hx
      · exact ⟨_, List.mem_cons_self, hfirst⟩
      · obtain ⟨y, hy, hrelated⟩ := ih hx
        exact ⟨y, List.mem_cons_of_mem _ hy, hrelated⟩

/-- Two machines at the same place with the same values, which have printed the same. -/
structure Abreast (m m' : Machine) : Prop where
  ip : m'.ip = m.ip
  operands : m'.operands = m.operands
  returns : m'.returns = m.returns
  printed : m'.printed = m.printed

/-- Two machines that are abreast hold the same values of a variable as of the renamed one. -/
structure Lockstep (image image' : Image) (m m' : Machine) : Prop extends Abreast m m' where
  bindings : ∀ name, image.Knows name → image'.Knows (ρ.qualified name) →
    m'.bindings.stack (nameHash (ρ.qualified name)) = m.bindings.stack (nameHash name)

section Machines

variable {image image' : Image} {b b' : Bindings UInt64 Number} {m m₁ m' m₁' : Machine}

/-- The hashes of two names are the same in one image where those of the renamed names are in the
other. -/
theorem nameHash_qualified_eq_iff {name other : String} (hname : image.Knows name)
    (hname' : image'.Knows (ρ.qualified name)) (hother : image.Knows other)
    (hother' : image'.Knows (ρ.qualified other)) :
    nameHash (ρ.qualified name) = nameHash (ρ.qualified other) ↔
      nameHash name = nameHash other := by
  rw [hname'.hash_eq_iff hother', hname.hash_eq_iff hother, ρ.qualified_injective.eq_iff]

theorem Lockstep.push {name : String} {value : Number} {operands : List Number}
    (h : ρ.Lockstep image image' m m') (hname : image.Knows name)
    (hname' : image'.Knows (ρ.qualified name)) : ρ.Lockstep image image'
      { m with operands := operands, bindings := m.bindings.push (nameHash name) value }
      { m' with
        operands := operands
        bindings := m'.bindings.push (nameHash (ρ.qualified name)) value } := by
  refine ⟨⟨h.ip, rfl, h.returns, h.printed⟩, fun other hother hother' => ?_⟩
  have hsame := ρ.nameHash_qualified_eq_iff hother hother' hname hname'
  simp only [Bindings.stack_push, hsame, h.bindings other hother hother']

theorem Lockstep.pop {name : String} (h : ρ.Lockstep image image' m m')
    (hname : image.Knows name) (hname' : image'.Knows (ρ.qualified name)) :
    ρ.Lockstep image image' { m with bindings := m.bindings.pop (nameHash name) }
      { m' with bindings := m'.bindings.pop (nameHash (ρ.qualified name)) } := by
  refine ⟨⟨h.ip, h.operands, h.returns, h.printed⟩, fun other hother hother' => ?_⟩
  have hsame := ρ.nameHash_qualified_eq_iff hother hother' hname hname'
  simp only [Bindings.stack_pop, hsame, h.bindings other hother hother']

/-- Instructions that are the same but for the renaming keep machines in lockstep. -/
theorem Lockstep.execute {i i' : Instruction} {size : Nat} (h : ρ.Lockstep image image' m m')
    (hrenames : ρ.Renames image image' i i') (hexecuted : m.execute size i = (m₁, none))
    (hexecuted' : m'.execute size i' = (m₁', none)) : ρ.Lockstep image image' m₁ m₁' := by
  cases hrenames with
  | set hname hname' =>
      rw [Machine.execute, Machine.takeOperand] at hexecuted hexecuted'
      rw [h.operands] at hexecuted'
      cases hoperands : m.operands with
      | nil =>
          rw [hoperands] at hexecuted
          cases hexecuted
      | cons value rest =>
          rw [hoperands] at hexecuted hexecuted'
          cases hexecuted
          cases hexecuted'
          exact h.push ρ hname hname'
  | get hname hname' =>
      rw [Machine.execute, Bindings.top?] at hexecuted hexecuted'
      rw [h.bindings _ hname hname'] at hexecuted'
      cases hstack : m.bindings.stack (nameHash _) with
      | nil =>
          rw [hstack] at hexecuted
          cases hexecuted
      | cons value values =>
          rw [hstack] at hexecuted hexecuted'
          cases hexecuted
          cases hexecuted'
          have hoperands := congrArg (value :: ·) h.operands
          exact ⟨⟨h.ip, hoperands, h.returns, h.printed⟩, h.bindings⟩
  | unset hname hname' =>
      rw [Machine.execute] at hexecuted hexecuted'
      split at hexecuted <;> cases hexecuted
      split at hexecuted' <;> cases hexecuted'
      exact h.pop ρ hname hname'
  | same hplain =>
      have hm' : m' = { m with bindings := m'.bindings } := by
        obtain ⟨⟨hip, hoperands, hreturns, hprinted⟩, -⟩ := h
        rw [← hip, ← hoperands, ← hreturns, ← hprinted]
      have hkept := Machine.execute_bindings hplain size m m.bindings
      have hsame := Machine.execute_bindings hplain size m m'.bindings
      rw [hexecuted] at hkept hsame
      rw [hm', hsame] at hexecuted'
      cases hexecuted'
      refine ⟨⟨rfl, rfl, rfl, rfl⟩, ?_⟩
      have hbindings : m₁.bindings = m.bindings :=
        congrArg (fun r : Machine × Option FaultCause => r.1.bindings) hkept
      rw [hbindings]
      exact h.bindings

theorem Lockstep.initial : ρ.Lockstep image image' .initial .initial :=
  ⟨⟨rfl, rfl, rfl, rfl⟩, fun _ _ _ => (Bindings.stack_empty _).trans (Bindings.stack_empty _).symm⟩

theorem Lockstep.move {i i' : Instruction} (h : ρ.Lockstep image image' m m')
    (hsize : image'.bytecode.length = image.bytecode.length)
    (hrenames : ρ.Renames image image' i i')
    (hdecoded : Instruction.decode image.bytecode m.ip = .ok i)
    (hdecoded' : Instruction.decode image'.bytecode m'.ip = .ok i')
    (hmove : m.Moves image.bytecode m₁) (hmove' : m'.Moves image'.bytecode m₁') :
    ρ.Lockstep image image' m₁ m₁' := by
  obtain ⟨_, hd, hexecuted⟩ := hmove
  cases hdecoded.symm.trans hd
  obtain ⟨_, hd', hexecuted'⟩ := hmove'
  cases hdecoded'.symm.trans hd'
  rw [hsize, hrenames.encodedLength_eq, h.ip] at hexecuted'
  refine Lockstep.execute ρ ?_ hrenames hexecuted hexecuted'
  exact ⟨⟨rfl, h.operands, h.returns, h.printed⟩, h.bindings⟩

end Machines

/-- Two codes of one length with the same instructions at the same offsets but for the renaming,
both of which run without a fault. -/
structure CodeAlike (image image' : Image) : Prop where
  size : image'.bytecode.length = image.bytecode.length
  instructions : List.Forall₂ (fun x y => y.1 = x.1 ∧ ρ.Renames image image' x.2 y.2)
    (instructions image.bytecode).1 (instructions image'.bytecode).1
  code : SelfContained image.bytecode
  code' : SelfContained image'.bytecode
  runs : Machine.initial.NeverFaults image.bytecode
  runs' : Machine.initial.NeverFaults image'.bytecode

namespace CodeAlike

variable {image image' : Image} {m m' : Machine}

theorem exists_decode (h : ρ.CodeAlike image image') {offset : Nat} {i : Instruction}
    (hmem : (offset, i) ∈ (StackCalc.instructions image.bytecode).1) :
    ∃ i', Instruction.decode image'.bytecode offset = .ok i' ∧ ρ.Renames image image' i i' := by
  obtain ⟨⟨offset', i'⟩, hmem', hoffset, hrenames⟩ := exists_of_forall₂ h.instructions hmem
  cases hoffset
  exact ⟨i', (h.code'.decode_of_mem hmem').1, hrenames⟩

theorem after (h : ρ.CodeAlike image image') (n : Nat) :
    ρ.Lockstep image image' (Machine.after image.bytecode n .initial)
      (Machine.after image'.bytecode n .initial) := by
  induction n with
  | zero => exact .initial ρ
  | succ n ih =>
      have hinitial := Machine.initial_onBoundaries h.code
      have hboundary := (Machine.after_onBoundaries h.code hinitial n).ip
      have hip := ih.ip
      rcases h.runs n with ⟨m₁, hmove⟩ | hend
      · have hlt := hmove.lt
        rcases h.runs' n with ⟨m₁', hmove'⟩ | hend'
        · obtain ⟨i, hmem, hdecoded, -⟩ := h.code.exists_of_boundary hboundary hlt
          obtain ⟨i', hdecoded', hrenames⟩ := h.exists_decode ρ hmem
          rw [← hip] at hdecoded'
          rw [hmove.after_succ, hmove'.after_succ]
          exact ih.move ρ h.size hrenames hdecoded hdecoded' hmove hmove'
        · rw [hip, h.size] at hend'
          exact absurd hend' (Nat.not_le.2 hlt)
      · have hend' : image'.bytecode.length ≤ (Machine.after image'.bytecode n .initial).ip := by
          rwa [hip, h.size]
        rw [Machine.after_succ, Machine.after_succ, Machine.step_of_end hend,
          Machine.step_of_end hend']
        exact ih

end CodeAlike

section Programs

variable {image image' : Image} {p : Program}

theorem targets_of_fits {items : List Item} {stop stop' : Nat} (h : Laid image 0 items stop)
    (h' : Laid image' 0 (items.map ρ.item) stop') (hfits : ∀ i ∈ items, i.Fits (labelNames items))
    (hfits' : ∀ i ∈ items.map ρ.item, i.Fits (labelNames (items.map ρ.item))) :
    ∀ c, .command c ∈ items → ρ.Targets image image' c := by
  have hlinks : image.Links items := fun _ hmem => h.lookup_ne_none (hfits _ hmem).2
  have hlinks' : image'.Links (items.map ρ.item) := fun _ hmem =>
    h'.lookup_ne_none (hfits' _ hmem).2
  intro c hmem target htarget
  have hname : target ∈ labelNames items := by
    rcases htarget with rfl | rfl
    · exact (hfits _ hmem).2
    · exact (hfits _ hmem).2
  obtain ⟨address, haddress⟩ := Option.ne_none_iff_exists'.1 (h.lookup_ne_none hname)
  exact ⟨address, haddress, (ρ.lookup_label h h' hlinks hlinks' hname).trans haddress⟩

theorem codeAlike (h : p.Builds image) (h' : (ρ.program p).Builds image') :
    ρ.CodeAlike image image' := by
  obtain ⟨lines, located, hlines, hofEntries, hvals⟩ := h.items
  obtain ⟨lines', located', hlines', hofEntries', hvals'⟩ := h'.items
  have hrenamed := ρ.compile_program h.words
  rw [hlines, hlines'] at hrenamed
  cases hrenamed
  have hlaid := laid_of_ofEntries hofEntries
  have hlaid' := laid_of_ofEntries hofEntries'
  have hfits' := (Program.items_of_compile h'.words hlines').1
  rw [hvals] at hlaid
  rw [hvals', items_line] at hlaid'
  rw [items_line] at hfits'
  have htargets := ρ.targets_of_fits hlaid hlaid' (Program.items_of_compile h.words hlines).1 hfits'
  obtain ⟨hsize, found, found', hfound, hfound', hall⟩ :=
    ρ.found_alike htargets hlaid hlaid' rfl rfl
  have hcode := selfContained_of_ofEntries hofEntries
  have hcode' := selfContained_of_ofEntries hofEntries'
  cases hcode.instructionsFrom_zero.symm.trans hfound
  cases hcode'.instructionsFrom_zero.symm.trans hfound'
  exact ⟨hsize, hall, hcode, hcode', h.neverFaults, h'.neverFaults⟩

/-- A renamed program compiles if the program does, and else is refused for the same reason at the
same place. Where both assemble, the codes are of one length and have the same instructions at the
same offsets, but for the hashes of the names. The machines that run them are abreast after any
number of steps, and halt at the same one. -/
theorem runs_in_lockstep
    (hover : p.Over IsIdentifier (fun value => value.isFinite = true)) :
    (ρ.program p).assembly.isOk = p.assembly.isOk ∧
    (∀ e, p.assembly = .error e →
      (ρ.program p).assembly = .error { e with val := ρ.error e.val }) ∧
    ∀ asm asm' image image', p.assembly = .ok asm → (ρ.program p).assembly = .ok asm' →
      assemble asm.toList = .ok image → assemble asm'.toList = .ok image' →
      image'.bytecode.length = image.bytecode.length ∧
      (instructions image.bytecode).2 = none ∧ (instructions image'.bytecode).2 = none ∧
      List.Forall₂ (fun x y => y.1 = x.1 ∧ ρ.Renames image image' x.2 y.2)
        (instructions image.bytecode).1 (instructions image'.bytecode).1 ∧
      ∀ n, ∃ m m' status, Machine.run image.bytecode n .initial = (m, status) ∧
        Machine.run image'.bytecode n .initial = (m', status) ∧ Abreast m m' := by
  obtain ⟨hok, herror⟩ := ρ.assembly_program hover
  refine ⟨hok, herror, fun asm asm' image image' hasm hasm' himage himage' => ?_⟩
  have hbuilds : p.Builds image := ⟨hover, asm, hasm, himage⟩
  have hbuilds' : (ρ.program p).Builds image' := ⟨ρ.over_stmts hover, asm', hasm', himage'⟩
  have halike := ρ.codeAlike hbuilds hbuilds'
  refine ⟨halike.size, halike.code.decodes, halike.code'.decodes, halike.instructions,
    fun n => ?_⟩
  have habreast := (halike.after ρ n).toAbreast
  have hrun' := halike.runs'.run_eq n
  rw [habreast.ip, halike.size] at hrun'
  exact ⟨_, _, _, halike.runs.run_eq n, hrun', habreast⟩

end Programs

end Renaming

namespace Toolchain

/-- Renames onto mnemonics, and onto a name that is used at another level. -/
def ontoMnemonics : Equiv.Perm Identifier :=
  let f : Identifier := ⟨"f", by decide⟩
  let x : Identifier := ⟨"x", by decide⟩
  let y : Identifier := ⟨"y", by decide⟩
  (Equiv.swap x ⟨"ret", by decide⟩).trans ((Equiv.swap f ⟨"pop", by decide⟩).trans (Equiv.swap y f))

def renamedOntoMnemonics : Renaming := ⟨ontoMnemonics, ontoMnemonics.injective, by decide +kernel⟩

theorem mnemonics_run_in_lockstep : ∃ program asm asm' image image',
    parse "def f(x) { y = x; return y + 1; } print(f(2));" = .ok program ∧
    program.assembly = .ok asm ∧
    (renamedOntoMnemonics.program program).assembly = .ok asm' ∧
    compile "def pop(ret) { f = ret; return f + 1; } print(pop(2));" = .ok asm' ∧
    Assembly.assemble asm.toList = .ok image ∧ Assembly.assemble asm'.toList = .ok image' ∧
    image'.bytecode.length = image.bytecode.length ∧
    ∃ m m', Machine.run image.bytecode 20 .initial = (m, .halted) ∧
      Machine.run image'.bytecode 20 .initial = (m', .halted) ∧ m'.printed = m.printed := by
  obtain ⟨program, hparse, hbuilt⟩ := exists_of_any (by decide +kernel :
    (parse "def f(x) { y = x; return y + 1; } print(f(2));").toOption.any (fun program =>
      (program.assembly.toOption.any fun asm =>
        (Assembly.assemble asm.toList).toOption.any fun image =>
          decide ((Machine.run image.bytecode 20 .initial).2 = .halted)) &&
      ((renamedOntoMnemonics.program program).assembly.toOption.any fun asm' =>
        (compile "def pop(ret) { f = ret; return f + 1; } print(pop(2));").toOption.any
            (fun asm => decide (asm = asm')) &&
          (Assembly.assemble asm'.toList).isOk)) = true)
  rw [Bool.and_eq_true] at hbuilt
  obtain ⟨hplain, hrenamed⟩ := hbuilt
  obtain ⟨asm, hasm, hplain⟩ := exists_of_any hplain
  obtain ⟨image, himage, hhalts⟩ := exists_of_any hplain
  obtain ⟨asm', hasm', hrenamed⟩ := exists_of_any hrenamed
  rw [Bool.and_eq_true] at hrenamed
  obtain ⟨_, hcompile, hsame⟩ := exists_of_any hrenamed.1
  cases of_decide_eq_true hsame
  obtain ⟨image', himage'⟩ := exists_of_isOk hrenamed.2
  obtain ⟨-, -, hbuilt⟩ :=
    renamedOntoMnemonics.runs_in_lockstep (over_of_parse hparse)
  obtain ⟨hsize, -, -, -, hruns⟩ := hbuilt asm asm' image image' hasm hasm' himage himage'
  obtain ⟨m, m', status, hrun, hrun', habreast⟩ := hruns 20
  rw [hrun] at hhalts
  cases of_decide_eq_true hhalts
  exact ⟨program, asm, asm', image, image', hparse, hasm, hasm', hcompile, himage, himage', hsize,
    m, m', hrun, hrun', habreast.printed⟩

end Toolchain

end StackCalc
