import Mathlib.Data.List.Forall2
import StackCalc.Proofs.Correctness
import StackCalc.Proofs.Decoding
import StackCalc.Proofs.JoinedParse

/-!
# Programs that go on

When the text of a program goes on, what was made of it stays: its assembly and its code are the
beginnings of longer ones, its labels keep their offsets, and the machine runs through its code as
before. Nothing behind it reaches back, not even a function that is called `print`, since a label
of that name only matters for calls by name, and those are of functions defined before.
-/

namespace StackCalc

open Assembly Source

theorem Text.unlines_append (xs ys : List String) :
    unlines (xs ++ ys) = unlines xs ++ unlines ys := by
  simp [unlines, String.join_append]

namespace Source.Program

variable {program more : Program} {lines lines' : List Line} {asm asm' : String}

theorem compile_append (h : program.compile = .ok lines)
    (h' : (program ++ more).compile = .ok lines') : lines <+: lines' := by
  obtain ⟨⟨first, mid⟩, hfirst, h⟩ := bind_eq_ok_iff.1 h
  obtain ⟨⟨all, last⟩, hall, h'⟩ := bind_eq_ok_iff.1 h'
  obtain ⟨first', mid', rest, hfirst', -, rfl⟩ := Compile.statements_append_ok hall
  cases hfirst.symm.trans hfirst'
  cases h
  cases h'
  exact List.prefix_append _ _

theorem assembly_append (h : program.assembly = .ok asm)
    (h' : (program ++ more).assembly = .ok asm') : asm.toList <+: asm'.toList := by
  obtain ⟨lines, hlines, rfl⟩ := assembly_ok h
  obtain ⟨lines', hlines', rfl⟩ := assembly_ok h'
  obtain ⟨rest, rfl⟩ := compile_append hlines hlines'
  rw [List.map_append, Text.unlines_append, String.toList_append]
  exact List.prefix_append _ _

end Source.Program

namespace Assembly

variable {image image' : Image} {items : List Item} {start stop stop' : Nat}

/-- The image defines every label that the items call. -/
def Image.Links (image : Image) (items : List Item) : Prop :=
  ∀ target, .command (.call target) ∈ items → image.labels.lookup target ≠ none

theorem Image.Links.mono {some : List Item} (h : image.Links items) (hsub : some ⊆ items) :
    image.Links some := fun target htarget => h target (hsub htarget)

theorem Image.Links.tail {item : Item} (h : image.Links (item :: items)) : image.Links items :=
  h.mono (List.subset_cons_self _ _)

theorem Laid.lookup_ne_none {name : String} (h : Laid image start items stop)
    (hname : name ∈ labelNames items) : image.labels.lookup name ≠ none := by
  obtain ⟨before, after, rfl⟩ := List.append_of_mem (mem_labelNames.1 hname)
  obtain ⟨mid, -, hlabel⟩ := Laid.append_iff.1 h
  obtain ⟨address, haddress, -⟩ := hlabel.label_inv
  rw [haddress]
  exact Option.some_ne_none address

theorem Lowers.opcode_eq {c : Command} {i : Instruction} (h : Lowers image c i)
    (hcall : ∀ target, c = .call target → image.labels.lookup target ≠ none) :
    i.opcode = c.opcode := by
  cases h with
  | callPrint hnone => exact absurd hnone (hcall _ rfl)
  | _ => rfl

theorem Lowers.unique {c : Command} {i i' : Instruction} (h : Lowers image c i)
    (h' : Lowers image' c i')
    (hcall : ∀ target, c = .call target → image.labels.lookup target ≠ none)
    (hlabels : ∀ name address, image.labels.lookup name = some address →
      image'.labels.lookup name = some address) : i = i' := by
  cases h with
  | jump htarget =>
      cases h' with
      | jump htarget' =>
          cases (hlabels _ _ htarget).symm.trans htarget'
          rfl
  | call htarget =>
      have htarget := hlabels _ _ htarget
      cases h' with
      | call htarget' =>
          cases htarget.symm.trans htarget'
          rfl
      | callPrint hnone => cases htarget.symm.trans hnone
  | callPrint hnone => exact absurd hnone (hcall _ rfl)
  | interrupt hfinite hvalue =>
      exact (@Lowers.interrupt image _ _ hfinite hvalue).interrupt_unique h'
  | _ =>
      cases h'
      rfl

/-- The number of bytes that the commands among items take. -/
def size (items : List Item) : Nat := ((commandsOf items).map (·.encodedLength)).sum

theorem Laid.stop_eq (h : Laid image start items stop) (hlinks : image.Links items) :
    stop = start + size items := by
  induction h with
  | nil => rfl
  | label _ _ ih => exact ih hlinks.tail
  | @command c i offset items stop hlowers _ _ ih =>
      have hopcode := hlowers.opcode_eq fun target hc => hlinks target (hc ▸ List.mem_cons_self)
      rw [ih hlinks.tail, size, size, commandsOf_command, List.map_cons, List.sum_cons,
        Operation.encodedLength, hopcode, Nat.add_assoc]
      rfl

theorem Laid.address_of_label {before after : List Item} {name : String}
    (h : Laid image 0 (before ++ .label name :: after) stop) (hlinks : image.Links before) :
    ∃ address, image.labels.lookup name = some address ∧ address.toNat = size before := by
  obtain ⟨mid, hbefore, hlabel⟩ := Laid.append_iff.1 h
  obtain ⟨address, haddress, hmid, -⟩ := hlabel.label_inv
  refine ⟨address, haddress, ?_⟩
  rw [hmid, hbefore.stop_eq hlinks, Nat.zero_add]

theorem Laid.bytes (h : Laid image start items stop) :
    ∃ found, List.Forall₂ (Lowers image) (commandsOf items) found ∧
      image.bytecode.drop start =
        found.flatMap Instruction.encode ++ image.bytecode.drop stop := by
  induction h with
  | nil => exact ⟨[], .nil, rfl⟩
  | label _ _ ih => exact ih
  | @command c i offset items stop hlowers hdecoded _ ih =>
      obtain ⟨found, hfound, hbytes⟩ := ih
      refine ⟨i :: found, .cons hlowers hfound, ?_⟩
      rw [Instruction.eq_encode_append_of_decodeFront hdecoded, List.drop_drop, hbytes,
        List.flatMap_cons, List.append_assoc]

theorem lowered_unique {commands : List Command} {found found' : List Instruction}
    (h : List.Forall₂ (Lowers image) commands found)
    (h' : List.Forall₂ (Lowers image') commands found')
    (hcalls : ∀ target, .call target ∈ commands → image.labels.lookup target ≠ none)
    (hlabels : ∀ name address, image.labels.lookup name = some address →
      image'.labels.lookup name = some address) : found = found' := by
  induction h generalizing found' with
  | nil =>
      cases h'
      rfl
  | @cons c i commands found hlowers _ ih =>
      cases h' with
      | cons hlowers' hrest' =>
          have hfirst := hlowers.unique hlowers'
            (fun target hc => hcalls target (hc ▸ List.mem_cons_self)) hlabels
          have hlater := ih hrest' fun target htarget =>
            hcalls target (List.mem_cons_of_mem _ htarget)
          rw [hfirst, hlater]

/-- The items of one image, laid out in front of others in another, take the same offsets and the
same bytes there. -/
theorem Laid.extends {more : List Item}
    (h : Laid image 0 items image.bytecode.length) (h' : Laid image' 0 (items ++ more) stop)
    (hnames : image.labels.map Prod.fst = labelNames items)
    (hlinks : ∀ target, .command (.call target) ∈ items → target ∈ labelNames items) :
    image.bytecode <+: image'.bytecode ∧
      ∀ name address, image.labels.lookup name = some address →
        image'.labels.lookup name = some address := by
  obtain ⟨mid, hitems', -⟩ : ∃ mid, Laid image' 0 items mid ∧ _ := Laid.append_iff.1 h'
  have hlinked : image.Links items := fun target htarget => h.lookup_ne_none (hlinks _ htarget)
  have hlinked' : image'.Links items :=
    fun target htarget => hitems'.lookup_ne_none (hlinks _ htarget)
  have hlabels : ∀ name address, image.labels.lookup name = some address →
      image'.labels.lookup name = some address := by
    intro name address haddress
    have hname := mem_labelNames_of_lookup hnames haddress
    obtain ⟨before, after, rfl⟩ := List.append_of_mem (mem_labelNames.1 hname)
    rw [List.append_assoc, List.cons_append] at h'
    have hbefore : before ⊆ before ++ .label name :: after := List.subset_append_left _ _
    obtain ⟨found, hfound, hoffset⟩ := h.address_of_label (hlinked.mono hbefore)
    obtain ⟨found', hfound', hoffset'⟩ := h'.address_of_label (hlinked'.mono hbefore)
    cases haddress.symm.trans hfound
    rw [hfound', UInt32.toNat_inj.1 (hoffset'.trans hoffset.symm)]
  refine ⟨?_, hlabels⟩
  obtain ⟨found, hfound, hbytes⟩ := h.bytes
  obtain ⟨found', hfound', hbytes'⟩ := hitems'.bytes
  have hsame := lowered_unique hfound hfound'
    (fun target htarget => hlinked target (mem_commandsOf.1 htarget)) hlabels
  rw [List.drop_zero, List.drop_length, List.append_nil] at hbytes
  rw [List.drop_zero, ← hsame, ← hbytes] at hbytes'
  exact ⟨_, hbytes'.symm⟩

end Assembly

namespace Machine

variable {code : List UInt8} {m m' : Machine} {passed : List Machine}

theorem execute_mono {size size' : Nat} {i : Instruction} (hsize : size ≤ size')
    (h : execute size m i = (m', none)) : execute size' m i = (m', none) := by
  cases i with
  | jump address | call address =>
      rw [execute, jump] at h ⊢
      split at h
      · next hle =>
          rw [if_pos (Nat.le_trans hle hsize)]
          exact h
      · cases h
  | _ => exact h

theorem Moves.append (h : Moves code m m') (more : List UInt8) : Moves (code ++ more) m m' := by
  obtain ⟨i, hdecoded, hexecuted⟩ := h
  refine ⟨i, Instruction.decode_append hdecoded more, execute_mono ?_ hexecuted⟩
  rw [List.length_append]
  exact Nat.le_add_right _ _

/-- On its way from one state to another the machine executes a number of instructions. -/
def Executes (code : List UInt8) (count : Nat) (m m' : Machine) : Prop :=
  ∃ passed, passed.length = count ∧ Path code m passed m'

theorem Executes.append {count : Nat} (h : Executes code count m m') (more : List UInt8) :
    Executes (code ++ more) count m m' := by
  obtain ⟨passed, hlength, hpath⟩ := h
  refine ⟨passed, hlength, ?_⟩
  clear hlength
  induction hpath with
  | nil m => exact .nil m
  | cons hmove _ ih => exact .cons (hmove.append more) ih

end Machine

theorem Source.Program.Builds.extends {program more : Program} {image image' : Image}
    (h : program.Builds image) (h' : (program ++ more).Builds image') :
    image.bytecode <+: image'.bytecode ∧
      ∀ name address, image.labels.lookup name = some address →
        image'.labels.lookup name = some address := by
  obtain ⟨lines, located, hlines, hofEntries, hvals⟩ := h.items
  obtain ⟨lines', located', hlines', hofEntries', hvals'⟩ := h'.items
  obtain ⟨rest, rfl⟩ := compile_append hlines hlines'
  have hlaid := laid_of_ofEntries hofEntries
  have hlaid' := laid_of_ofEntries hofEntries'
  rw [hvals] at hlaid
  rw [hvals', Line.items_append] at hlaid'
  refine hlaid.extends hlaid' (hvals ▸ labels_of_ofEntries hofEntries) fun target htarget => ?_
  exact ((items_of_compile h.words hlines).1 _ htarget).2

namespace Toolchain

theorem parse_append {source more : String} {program program' : Program}
    (h : parse source = .ok program) (h' : parse (source ++ more) = .ok program') :
    program <+: program' := by
  obtain ⟨toks, htoks, hparse⟩ := bind_eq_ok_iff.1 h
  obtain ⟨toks', htoks', hparse'⟩ := bind_eq_ok_iff.1 h'
  rw [mapError_eq_ok_iff] at htoks htoks' hparse hparse'
  rw [String.toList_append] at htoks'
  exact Source.parse_append htoks hparse htoks' hparse'

/-- A text that goes on behind a program keeps what was made of it: its assembly and its code are
the beginnings of the longer ones, its labels keep their offsets, and as many instructions of the
longer code lead to the same state. Where the shorter code has halted, this is just at its end. -/
theorem longer_text_appends {source more asm asm' : String} {image image' : Image}
    (hcompile : compile source = .ok asm) (hassemble : assemble asm = .ok image)
    (hcompile' : compile (source ++ more) = .ok asm') (hassemble' : assemble asm' = .ok image') :
    asm.toList <+: asm'.toList ∧ image.bytecode <+: image'.bytecode ∧
      (∀ name address, image.labels.lookup name = some address →
        image'.labels.lookup name = some address) ∧
      (∀ count m, Machine.Executes image.bytecode count .initial m →
        Machine.Executes image'.bytecode count .initial m ∧
          (image.bytecode.length ≤ m.ip → m.ip = image.bytecode.length)) ∧
      ∀ n m, Machine.run image.bytecode n .initial = (m, .halted) →
        ∃ count, Machine.Executes image.bytecode count .initial m ∧
          image.bytecode.length ≤ m.ip := by
  obtain ⟨program, hparse, hasm⟩ := compile_ok hcompile
  obtain ⟨program', hparse', hasm'⟩ := compile_ok hcompile'
  obtain ⟨rest, rfl⟩ := parse_append hparse hparse'
  have hbuilds : program.Builds image :=
    ⟨over_of_parse hparse, asm, hasm, mapError_eq_ok_iff.1 hassemble⟩
  have hbuilds' : (program ++ rest).Builds image' :=
    ⟨over_of_parse hparse', asm', hasm', mapError_eq_ok_iff.1 hassemble'⟩
  obtain ⟨hcode, hlabels⟩ := hbuilds.extends hbuilds'
  refine ⟨Source.Program.assembly_append hasm hasm', hcode, hlabels, ?_, ?_⟩
  · intro count m hexecutes
    obtain ⟨later, hlater⟩ := hcode
    refine ⟨hlater ▸ hexecutes.append later, fun hend => ?_⟩
    obtain ⟨passed, -, hpath⟩ := hexecutes
    obtain ⟨_, _, _, -, -, hended⟩ := hbuilds.ended (hpath.run_halted hend)
    exact hended.ip
  · intro n m hrun
    obtain ⟨_, _, passed, -, hpath, hended⟩ := hbuilds.ended hrun
    exact ⟨_, ⟨passed, rfl, hpath⟩, hended.ip.ge⟩

/-- A program that prints, followed at once by a function that takes the name of printing. -/
theorem print_defined_later : ∃ asm asm' image image' count m,
    compile "print(3);" = .ok asm ∧ assemble asm = .ok image ∧
    compile ("print(3);" ++ "def print(x) { return x; } print(4);") = .ok asm' ∧
    assemble asm' = .ok image' ∧ image.bytecode <+: image'.bytecode ∧
    Machine.Executes image.bytecode count .initial m ∧
    Machine.Executes image'.bytecode count .initial m ∧ m.ip = image.bytecode.length ∧
    m.printed = #[Number.read ['3']] := by
  obtain ⟨image, hbuilt, hruns⟩ := exists_of_any (by decide +kernel :
    (compile "print(3);" >>= assemble).toOption.any (fun image : Assembly.Image =>
      decide ((Machine.run image.bytecode 2 .initial).2 = .halted) &&
      decide ((Machine.run image.bytecode 2 .initial).1.printed = #[Number.read ['3']])) = true)
  simp only [Bool.and_eq_true, decide_eq_true_eq] at hruns
  obtain ⟨hhalts, hprinted⟩ := hruns
  obtain ⟨image', hbuilt'⟩ := exists_of_isOk (by decide +kernel :
    (compile ("print(3);" ++ "def print(x) { return x; } print(4);") >>= assemble).isOk = true)
  obtain ⟨asm, hcompile, hassemble⟩ := bind_eq_ok_iff.1 hbuilt
  obtain ⟨asm', hcompile', hassemble'⟩ := bind_eq_ok_iff.1 hbuilt'
  obtain ⟨-, hcode, -, hsame, hcounted⟩ :=
    longer_text_appends hcompile hassemble hcompile' hassemble'
  have hrun : Machine.run image.bytecode 2 .initial =
      ((Machine.run image.bytecode 2 .initial).1, .halted) := Prod.ext rfl hhalts
  obtain ⟨count, hexecutes, hend⟩ := hcounted _ _ hrun
  obtain ⟨hexecutes', hip⟩ := hsame count _ hexecutes
  exact ⟨asm, asm', image, image', count, _, hcompile, hassemble, hcompile', hassemble', hcode,
    hexecutes, hexecutes', hip hend, hprinted⟩

end Toolchain

end StackCalc
