import Mathlib.Data.List.Forall2
import Mathlib.Data.List.Nodup
import StackCalc.Proofs.Placement
import StackCalc.Proofs.Units

/-!
# Assembled code decoded

Decoding an image from end to end gives back its commands, one instruction for each and in order,
and every label has the offset at which the instruction behind it is found.
-/

namespace StackCalc

theorem instructionsFrom_of_decode {code : List UInt8} {offset : Nat} {i : Instruction}
    (h : Instruction.decode code offset = .ok i) :
    instructionsFrom offset (code.drop offset) =
      ((offset, i) :: (instructionsFrom (offset + i.encodedLength)
          (code.drop (offset + i.encodedLength))).1,
        (instructionsFrom (offset + i.encodedLength)
          (code.drop (offset + i.encodedLength))).2) := by
  rw [Instruction.decode] at h
  have hdrop : (code.drop offset).drop i.encodedLength = code.drop (offset + i.encodedLength) :=
    List.drop_drop
  rw [← hdrop]
  cases hcode : code.drop offset with
  | nil =>
      rw [hcode, Instruction.decodeFront] at h
      cases h
  | cons tag rest =>
      rw [hcode] at h
      rw [instructionsFrom, h]

namespace Assembly

/-- The commands among items, in order. -/
def commandsOf (items : List Item) : List Command :=
  items.filterMap fun
    | .label _ => none
    | .command c => some c

@[simp] theorem commandsOf_nil : commandsOf [] = [] := rfl

@[simp] theorem commandsOf_label (name : String) (items : List Item) :
    commandsOf (.label name :: items) = commandsOf items := rfl

@[simp] theorem commandsOf_command (c : Command) (items : List Item) :
    commandsOf (.command c :: items) = c :: commandsOf items := rfl

theorem commandsOf_append (xs ys : List Item) :
    commandsOf (xs ++ ys) = commandsOf xs ++ commandsOf ys := List.filterMap_append

theorem mem_commandsOf {items : List Item} {c : Command} :
    c ∈ commandsOf items ↔ .command c ∈ items := by
  induction items with
  | nil => simp
  | cons item items ih =>
      cases item with
      | label name => simp [ih]
      | command c' => simp [ih]

/-- The offset of the instruction at a place among decoded ones, or else the end of the code. -/
def offsetAt (found : List (Nat × Instruction)) (stop place : Nat) : Nat :=
  (found[place]?.map Prod.fst).getD stop

/-- Items that lie in an image up to its end are what decoding finds there. -/
theorem Laid.instructions {image : Image} {items : List Item} {start stop : Nat}
    (h : Laid image start items stop) (hstop : stop = image.bytecode.length) :
    ∃ found, instructionsFrom start (image.bytecode.drop start) = (found, none) ∧
      offsetAt found stop 0 = start ∧
      List.Forall₂ (Lowers image) (commandsOf items) (found.map Prod.snd) ∧
      ∀ before name after, items = before ++ .label name :: after →
        ∃ address, image.labels.lookup name = some address ∧
          address.toNat = offsetAt found stop (commandsOf before).length := by
  induction h with
  | nil offset =>
      refine ⟨[], ?_, rfl, .nil, ?_⟩
      · rw [hstop, List.drop_length, instructionsFrom]
      · intro before name after hitems
        cases before <;> cases hitems
  | @label name address items stop hlabel rest ih =>
      obtain ⟨found, hfound, hfirst, hcommands, hlabels⟩ := ih hstop
      refine ⟨found, hfound, hfirst, hcommands, ?_⟩
      intro before name' after hitems
      cases before with
      | nil =>
          cases hitems
          exact ⟨address, hlabel, hfirst.symm⟩
      | cons item before =>
          cases hitems
          exact hlabels before name' after rfl
  | @command c i offset items stop hlowers hdecoded rest ih =>
      obtain ⟨found, hfound, -, hcommands, hlabels⟩ := ih hstop
      refine ⟨(offset, i) :: found, ?_, rfl, .cons hlowers hcommands, ?_⟩
      · rw [instructionsFrom_of_decode hdecoded, hfound]
      · intro before name after hitems
        cases before with
        | nil => cases hitems
        | cons item before =>
            cases hitems
            exact hlabels before name after rfl

theorem Layout.nodup_of_place {hasher : String → UInt64} {definesPrint : Bool}
    {layout last : Layout} {items : List (Located Item)} {all : List (Located Placed)}
    (hnodup : (layout.labels.map Prod.fst).Nodup)
    (h : place hasher definesPrint layout (entriesOf items) = .ok (all, last)) :
    (last.labels.map Prod.fst).Nodup := by
  induction items generalizing layout all with
  | nil =>
      cases h
      exact hnodup
  | cons item items ih =>
      obtain ⟨item, span⟩ := item
      cases item with
      | label name =>
          rw [place_label] at h
          obtain ⟨next, hdefine, h⟩ := bind_eq_ok_iff.1 h
          obtain ⟨address, -, hnone, rfl⟩ := define_ok hdefine
          refine ih ?_ h
          rw [List.map_append, List.map_cons, List.map_nil]
          refine List.nodup_append.2 ⟨hnodup, List.nodup_singleton _, ?_⟩
          rintro known hknown other hother rfl
          cases List.mem_singleton.1 hother
          exact lookup_eq_none_iff.1 hnone hknown
      | command c =>
          obtain ⟨placed, names, rest, -, hrest, rfl⟩ := place_command_ok h
          have hpast : (layout.past placed names).labels = layout.labels := rfl
          exact ih (hpast ▸ hnodup) hrest

theorem nodup_labels_of_ofEntries {hasher : String → UInt64} {items : List (Located Item)}
    {image : Image} (h : Image.ofEntries hasher (entriesOf items) = .ok image) :
    (image.labels.map Prod.fst).Nodup := by
  obtain ⟨placed, layout, resolved, hplace, -, rfl⟩ := ofEntries_ok h
  have hempty : (Layout.empty.labels.map Prod.fst).Nodup := List.nodup_nil
  exact Layout.nodup_of_place hempty hplace

/-- The code of a unit decodes to its end, into an instruction for each command of the unit and in
their order; and the labels are those of the unit, each at the offset of the first instruction
behind it, or at the end of the code if there is none. -/
theorem assembled_code_decodes {text : List Char} {image : Image}
    (h : assemble text = .ok image) :
    ∃ located found, entries (tokens text) = .ok (entriesOf located) ∧
      StackCalc.instructions image.bytecode = (found, none) ∧
      List.Forall₂ (Lowers image) (commandsOf (located.map (·.val))) (found.map Prod.snd) ∧
      image.labels.map Prod.fst = labelNames (located.map (·.val)) ∧
      (image.labels.map Prod.fst).Nodup ∧
      ∀ before name after, located.map (·.val) = before ++ .label name :: after →
        ∃ address, image.labels.lookup name = some address ∧
          address.toNat =
            offsetAt found image.bytecode.length (commandsOf before).length := by
  obtain ⟨located, hreads, hofEntries⟩ := assembleWith_ok h
  obtain ⟨found, hfound, -, hcommands, hlabels⟩ := (laid_of_ofEntries hofEntries).instructions rfl
  exact ⟨located, found, entries_of_reads hreads, hfound, hcommands, labels_of_ofEntries hofEntries,
    nodup_labels_of_ofEntries hofEntries, hlabels⟩

/-- A unit with two labels at its beginning, one at its end, a call of `print`, which it does not
define, and an interrupt that is no `print`. -/
def threeLabels : List Char :=
  "first: second: jmp last call print set x push 1.5 call first int 7 last:".toList

/-- What the unit is read as. -/
def threeLabelItems : List Item :=
  [.label "first", .label "second", .command (.jump "last"), .command (.call "print"),
    .command (.set "x"), .command (.push (Number.read "1.5".toList)), .command (.call "first"),
    .command (.interrupt (Number.read "7".toList)), .label "last"]

theorem three_labels_decode : ∃ image located found, assemble threeLabels = .ok image ∧
    entries (tokens threeLabels) = .ok (entriesOf located) ∧
    located.map (·.val) = threeLabelItems ∧
    StackCalc.instructions image.bytecode = (found, none) ∧ found.length = 6 ∧
    (found.map Prod.snd)[1]? = some (.interrupt Interrupt.print.id) ∧
    (found.map Prod.snd)[5]? = some (.interrupt 7) ∧
    (∃ address, image.labels.lookup "second" = some address ∧
      address.toNat = offsetAt found image.bytecode.length 0) ∧
    ∃ address, image.labels.lookup "last" = some address ∧
      address.toNat = image.bytecode.length := by
  obtain ⟨image, h⟩ := exists_of_isOk (by decide +kernel : (assemble threeLabels).isOk = true)
  obtain ⟨located, found, hread, hfound, hcommands, hnames, -, hlabels⟩ := assembled_code_decodes h
  have hentries : (entries (tokens threeLabels)).toOption.map (fun read => read.map (·.val)) =
      some (threeLabelItems.map Item.entry) := by decide +kernel
  have hvals : located.map (·.val) = threeLabelItems := by
    apply (List.map_inj_right fun _ _ => Item.entry_inj.1).1
    simpa [hread, Except.toOption, entriesOf, Function.comp_def] using hentries
  rw [hvals] at hcommands hlabels hnames
  have hcount : found.length = 6 := by
    simpa [threeLabelItems] using hcommands.length_eq.symm
  have hlength : (found.map Prod.snd).length = 6 := by rw [List.length_map, hcount]
  have hcall : Lowers image (.call printName) (found.map Prod.snd)[1] :=
    hcommands.get (show 1 < (commandsOf threeLabelItems).length by decide) (by omega)
  have hinterrupt : Lowers image (.interrupt (Number.read "7".toList)) (found.map Prod.snd)[5] :=
    hcommands.get (show 5 < (commandsOf threeLabelItems).length by decide) (by omega)
  refine ⟨image, located, found, h, hread, hvals, hfound, hcount, ?_, ?_, ?_, ?_⟩
  · rw [List.getElem?_eq_getElem (by omega), Option.some_inj]
    have hnone : image.labels.lookup printName = none := by
      rw [Layout.lookup_eq_none_iff, hnames]
      decide
    generalize (found.map Prod.snd)[1] = i at hcall ⊢
    cases hcall with
    | call htarget => cases hnone.symm.trans htarget
    | callPrint => rfl
  · rw [List.getElem?_eq_getElem (by omega), Option.some_inj]
    obtain ⟨id, hid, hlowered⟩ := hinterrupt.interrupt_inv
    have hseven : (Number.read "7".toList).toByte? = some 7 := by decide +kernel
    rw [hlowered, Option.some.inj (hid.symm.trans hseven)]
  · exact hlabels [.label "first"] "second" _ rfl
  · obtain ⟨address, haddress, hoffset⟩ := hlabels threeLabelItems.dropLast "last" [] rfl
    refine ⟨address, haddress, hoffset.trans ?_⟩
    have hbehind : found[6]? = none := List.getElem?_eq_none (Nat.le_of_eq hcount)
    have hcommand : (commandsOf threeLabelItems.dropLast).length = 6 := rfl
    rw [offsetAt, hcommand, hbehind]
    rfl

end Assembly

end StackCalc
