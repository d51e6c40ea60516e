import StackCalc.Proofs.UnitTexts
import StackCalc.Proofs.Verdict

/-!
# Subjects in the text of a unit

A unit is refused for its first fault, or since its code would be too long to be addressed. Either
way the refusal has the span of a token or of an item, and the text shows there what the refusal is
about.
-/

namespace StackCalc.Assembly

/-- One of the mnemonics, then the name. -/
def IsNaming (opcodes : List Opcode) (name : String) (slice : List Char) : Prop :=
  ∃ opcode ∈ opcodes, ∃ gap, IsGap gap ∧ slice = opcode.mnemonic.toList ++ (gap ++ name.toList)

/-- What the span of a refusal shows: the token that does not belong there, the mnemonic that lacks
its operand, or the item that cannot be assembled. -/
def Refusal.IsShown (slice : List Char) : Refusal → Prop
  | .invalidToken c => slice = [c]
  | .unexpectedToken found => Spells slice (.ok found)
  | .missingOperand opcode _ => slice = opcode.mnemonic.toList
  | .duplicateLabel name => slice = name.toList ++ [':']
  | .undefinedLabel name => IsNaming [.jump, .call] name slice
  | .hashCollision _ second => IsNaming [.set, .get, .unset] second slice
  | .invalidInterrupt => ∃ gap value, IsGap gap ∧ value ≠ [] ∧
      ¬ (Number.read value).IsByte ∧ slice = Opcode.interrupt.mnemonic.toList ++ (gap ++ value)
  | .addressOverflow => ∃ item, Item.Spelled slice item

section Shown

variable {hasher : String → UInt64} {text slice : List Char} {before : List Item} {item : Item}
  {labels : List String} {c : Command} {name : String} {refusal : Refusal} {e : Located Refusal}

theorem mnemonic_ne_nil (opcode : Opcode) : opcode.mnemonic.toList ≠ [] := by
  obtain ⟨c, tail, hchars, -⟩ := Lexer.isName_mnemonic opcode
  rw [hchars]
  exact List.cons_ne_nil c tail

theorem Spells.ne_nil {token : Except Char Token} (h : Spells slice token) : slice ≠ [] := by
  cases h with
  | mnemonic opcode => exact mnemonic_ne_nil opcode
  | label h => exact List.append_ne_nil_of_right_ne_nil _ (List.cons_ne_nil _ _)
  | name h =>
      obtain ⟨c, tail, hchars, -⟩ := h
      rw [hchars]
      exact List.cons_ne_nil c tail
  | number hne => exact hne
  | invalid c => exact List.cons_ne_nil _ _

theorem Item.Spelled.ne_nil (h : item.Spelled slice) : slice ≠ [] := by
  cases h with
  | label name => exact List.append_ne_nil_of_right_ne_nil _ (List.cons_ne_nil _ _)
  | alone h => exact mnemonic_ne_nil _
  | along hgap h => exact List.append_ne_nil_of_left_ne_nil (mnemonic_ne_nil _) _

theorem IsNaming.ne_nil {opcodes : List Opcode} (h : IsNaming opcodes name slice) : slice ≠ [] := by
  obtain ⟨opcode, -, gap, -, rfl⟩ := h
  exact List.append_ne_nil_of_left_ne_nil (mnemonic_ne_nil opcode) _

theorem Refusal.IsShown.ne_nil (h : refusal.IsShown slice) : slice ≠ [] := by
  cases refusal with
  | invalidToken c => exact h ▸ List.cons_ne_nil c []
  | unexpectedToken found => exact Spells.ne_nil h
  | missingOperand opcode expected => exact h ▸ mnemonic_ne_nil opcode
  | duplicateLabel name => exact h ▸ List.append_ne_nil_of_right_ne_nil _ (List.cons_ne_nil _ _)
  | undefinedLabel name | hashCollision first second => exact IsNaming.ne_nil h
  | invalidInterrupt =>
      obtain ⟨gap, value, -, -, -, rfl⟩ := h
      exact List.append_ne_nil_of_left_ne_nil (mnemonic_ne_nil _) _
  | addressOverflow =>
      obtain ⟨item, hspelled⟩ := h
      exact hspelled.ne_nil

theorem Item.Spelled.isNaming {opcodes : List Opcode} (h : (Item.command c).Spelled slice)
    (hname : c.operand = .name name) (hopcode : c.opcode ∈ opcodes) :
    IsNaming opcodes name slice := by
  cases h with
  | alone hnone =>
      rw [hname] at hnone
      cases hnone
  | along hgap hwritten =>
      rw [hname] at hwritten
      cases hwritten
      exact ⟨c.opcode, hopcode, _, hgap, rfl⟩

theorem Clash.isShown (h : Clash hasher before item refusal) (hspelled : item.Spelled slice) :
    refusal.IsShown slice := by
  cases h with
  | label hmem =>
      cases hspelled
      rfl
  | interrupt hvalue =>
      cases hspelled with
      | alone hnone => cases hnone
      | along hgap hwritten =>
          cases hwritten with
          | number hne => exact ⟨_, _, hgap, hne, hvalue, rfl⟩
  | @name c name first hname hfirst hhash hne =>
      cases c with
      | set name | get name | unset name =>
          cases hname
          exact hspelled.isNaming rfl (by simp [Operation.opcode])
      | _ => cases hname

theorem Dangles.isNaming (h : Dangles labels c name) (hspelled : (Item.command c).Spelled slice) :
    IsNaming [.jump, .call] name slice := by
  cases h with
  | jump hname => exact hspelled.isNaming rfl (by simp [Operation.opcode])
  | call hname hprint => exact hspelled.isNaming rfl (by simp [Operation.opcode])

theorem shows_of_refusedAt (h : RefusedAt (tokens text) e) :
    ∃ slice, Text.Shows text e.span slice ∧ e.val.IsShown slice := by
  obtain ⟨before, located, rest, htokens, -, hrefuses⟩ := h
  cases hrefuses with
  | invalid c span rest =>
      obtain ⟨skipped, slice, after, hcuts, hspells, -⟩ := exists_begins_behind htokens
      cases hspells
      exact ⟨[c], hcuts.shows, rfl⟩
  | strayName written span rest | strayNumber value span rest =>
      obtain ⟨skipped, slice, after, hcuts, hspells, -⟩ := exists_begins_behind htokens
      exact ⟨slice, hcuts.shows, hspells⟩
  | invalidOperand span c place rest hkind =>
      rw [List.append_cons] at htokens
      obtain ⟨skipped, slice, after, hcuts, hspells, -⟩ := exists_begins_behind htokens
      cases hspells
      exact ⟨[c], hcuts.shows, rfl⟩
  | wrongOperand span place rest hkind htoken | noOperand span hkind =>
      obtain ⟨skipped, slice, after, hcuts, hspells, -⟩ := exists_begins_behind htokens
      cases hspells
      exact ⟨_, hcuts.shows, rfl⟩

/-- Whatever a unit is refused for, the span of the refusal shows it. -/
theorem shows_of_assembleWith (h : assembleWith hasher text = .error e) :
    ∃ slice, Text.Shows text e.span slice ∧ e.val.IsShown slice := by
  obtain hrefused | ⟨items, hreads, hofEntries⟩ := assembleWith_error h
  · exact shows_of_refusedAt hrefused
  cases itemsRefused_of_ofEntries hofEntries with
  | overflow hitem =>
      obtain ⟨slice, hshows, hspelled⟩ := shows_item hreads hitem
      exact ⟨slice, hshows, _, hspelled⟩
  | clash hitems hclash =>
      obtain ⟨slice, hshows, hspelled⟩ := shows_item hreads (hitems ▸ List.mem_append_cons_self)
      exact ⟨slice, hshows, hclash.isShown hspelled⟩
  | target hitems hdangles =>
      obtain ⟨slice, hshows, hspelled⟩ := shows_item hreads (hitems ▸ List.mem_append_cons_self)
      exact ⟨slice, hshows, hdangles.isNaming hspelled⟩

end Shown

end StackCalc.Assembly
