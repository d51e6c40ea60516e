import StackCalc.Assembly.Image
import StackCalc.Assembly.Line
import StackCalc.Proofs.Outcome

/-!
# Entries of items

An item is read as an entry: a label, or the mnemonic of a command with its operand. An entry of an
item has the operand that goes with its mnemonic, so laying it out is laying out the command.
-/

namespace StackCalc.Assembly

/-- What a command is written with behind its mnemonic. -/
def Command.operand : Command → Operand
  | .jump target | .call target => .name target
  | .set name | .get name | .unset name => .name name
  | .push value | .interrupt value => .number value
  | .ret | .arith _ | .pop => .none

theorem Command.eq_of_written {c c' : Command} (hopcode : c.opcode = c'.opcode)
    (hoperand : c.operand = c'.operand) : c = c' := by
  cases c <;> cases c' <;> simp_all [Operation.opcode, Command.operand]

/-- What an item is read as. -/
def Item.entry : Item → Entry
  | .label name => .label name
  | .command c => .command c.opcode c.operand

theorem Item.entry_inj {item item' : Item} : item.entry = item'.entry ↔ item = item' := by
  refine ⟨fun h => ?_, congrArg Item.entry⟩
  cases item with
  | label name =>
      cases item' with
      | label name' =>
          cases h
          rfl
      | command c' => cases h
  | command c =>
      cases item' with
      | label name' => cases h
      | command c' =>
          obtain ⟨hopcode, hoperand⟩ := Entry.command.inj h
          rw [Command.eq_of_written hopcode hoperand]

theorem Item.entry_eq_label {item : Item} {name : String} :
    item.entry = .label name ↔ item = .label name := @entry_inj item (.label name)

/-- What items are read as, each with its span. -/
def entriesOf (items : List (Located Item)) : List (Located Entry) :=
  items.map fun item => ⟨item.val.entry, item.span⟩

theorem entriesOf_inj {items items' : List (Located Item)} :
    entriesOf items = entriesOf items' ↔ items = items' := by
  refine List.map_inj_right fun item item' h => ?_
  obtain ⟨hval, hspan⟩ := Located.mk.inj h
  cases item
  cases item'
  cases Item.entry_inj.1 hval
  cases hspan
  rfl

namespace Layout

variable {layout last : Layout} {hasher : String → UInt64} {prints : Bool} {span : Span}
  {c : Command} {items : List (Located Item)} {all : List (Located Placed)}

theorem lower_call {target : String} :
    layout.lower hasher prints span (Operation.opcode (.call target : Command))
        (Command.operand (.call target)) =
      if target = printName && !prints then .ok (.interrupt Interrupt.print.id, layout.names)
      else .ok (.call target, layout.names) := rfl

theorem lower_interrupt {value : Number} :
    layout.lower hasher prints span (Operation.opcode (.interrupt value : Command))
        (Command.operand (.interrupt value)) =
      match value.toByte? with
      | some id => .ok (.interrupt id, layout.names)
      | none => .error ⟨.invalidInterrupt, span⟩ := rfl

/-- A command about a variable has the hash of its name put for the name. -/
theorem exists_lower_name {name : String} (hname : c.name? = some name) :
    ∃ placed : UInt64 → Placed, (∀ hash, (placed hash).encodedLength = c.encodedLength) ∧
      ∀ (layout : Layout) (hasher : String → UInt64) (prints : Bool) (span : Span),
        layout.lower hasher prints span c.opcode c.operand =
          layout.hash hasher name span >>= fun (hash, names) => .ok (placed hash, names) := by
  cases c with
  | set _ =>
      cases hname
      exact ⟨.set, fun _ => rfl, fun _ _ _ _ => rfl⟩
  | get _ =>
      cases hname
      exact ⟨.get, fun _ => rfl, fun _ _ _ _ => rfl⟩
  | unset _ =>
      cases hname
      exact ⟨.unset, fun _ => rfl, fun _ _ _ _ => rfl⟩
  | jump target | call target | ret | arith op | push value | pop | interrupt value => cases hname

theorem place_label {name : String} :
    place hasher prints layout (entriesOf (⟨.label name, span⟩ :: items)) =
      layout.define name span >>= fun next => place hasher prints next (entriesOf items) := rfl

/-- The layout behind a command. -/
def past (layout : Layout) (placed : Placed) (names : Names) : Layout :=
  { layout with cursor := layout.cursor + placed.encodedLength, names := names }

theorem place_command :
    place hasher prints layout (entriesOf (⟨.command c, span⟩ :: items)) =
      layout.address span >>= fun _ =>
        layout.lower hasher prints span c.opcode c.operand >>= fun (placed, names) =>
          place hasher prints (layout.past placed names) (entriesOf items) >>=
            fun (rest, last) => .ok (⟨placed, span⟩ :: rest, last) := rfl

theorem place_command_ok
    (h : place hasher prints layout (entriesOf (⟨.command c, span⟩ :: items)) = .ok (all, last)) :
    ∃ placed names rest, layout.lower hasher prints span c.opcode c.operand = .ok (placed, names) ∧
      place hasher prints (layout.past placed names) (entriesOf items) = .ok (rest, last) ∧
      all = ⟨placed, span⟩ :: rest := by
  rw [place_command] at h
  obtain ⟨_, -, h⟩ := bind_eq_ok_iff.1 h
  obtain ⟨⟨placed, names⟩, hlower, h⟩ := bind_eq_ok_iff.1 h
  obtain ⟨⟨rest, last'⟩, hrest, h⟩ := bind_eq_ok_iff.1 h
  cases h
  exact ⟨placed, names, rest, hlower, hrest, rfl⟩

end Layout

end StackCalc.Assembly
