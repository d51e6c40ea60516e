import StackCalc.Proofs.Entries

/-!
# Units as they are written

An item of a unit is written with one token or two: a label, a mnemonic alone, or a mnemonic and
the operand that its kind takes. Tokens that are such items one behind another are read as these,
and any others are refused at the first place where no item begins.
-/

namespace StackCalc.Assembly

/-- A name may be given by a mnemonic, since it is spelled like one. -/
inductive Operand.GivenBy : Operand → Token → Prop
  | name (written) : GivenBy (.name written) (.name written)
  | mnemonic (opcode) : GivenBy (.name opcode.mnemonic) (.mnemonic opcode)
  | number (value) : GivenBy (.number value) (.number value)

inductive OperandKind where
  | name
  | number
deriving DecidableEq

/-- What is said to be expected where an operand of the kind is missing. -/
def OperandKind.phrase : OperandKind → String
  | name => "a name"
  | number => "a number"

/-- The kind of operand that goes with a mnemonic. -/
def operandKind? : Opcode → Option OperandKind
  | .jump | .call | .set | .get | .unset => some .name
  | .push | .interrupt => some .number
  | .ret | .arith _ | .pop => none

def OperandKind.Admits : OperandKind → Token → Prop
  | .name, .name _ | .name, .mnemonic _ | .number, .number _ => True
  | _, _ => False

/-- The tokens of an item. The span reaches from the first of them to the end of the last. -/
inductive Written : Located Item → Tokens → Prop
  | label (name span) : Written ⟨.label name, span⟩ [⟨.ok (.label name), span⟩]
  | alone {c : Command} (span) (h : c.operand = .none) :
      Written ⟨.command c, span⟩ [⟨.ok (.mnemonic c.opcode), span⟩]
  | along {c : Command} {token} (span place) (h : c.operand.GivenBy token) :
      Written ⟨.command c, span.start, place.stop⟩
        [⟨.ok (.mnemonic c.opcode), span⟩, ⟨.ok token, place⟩]

/-- The tokens are items, one behind another. -/
inductive Reads : Tokens → List (Located Item) → Prop
  | nil : Reads [] []
  | cons {item front tokens items} (h : Written item front) (rest : Reads tokens items) :
      Reads (front ++ tokens) (item :: items)

/-- The tokens begin with no item: a character that is in no token, be it first or where an operand
is due, a token that begins nothing, or a mnemonic without the operand that goes with it. -/
inductive Refuses : Tokens → Located Refusal → Prop
  | invalid (c span rest) : Refuses (⟨.error c, span⟩ :: rest) ⟨.invalidToken c, span⟩
  | strayName (written span rest) :
      Refuses (⟨.ok (.name written), span⟩ :: rest) ⟨.unexpectedToken (.name written), span⟩
  | strayNumber (value span rest) :
      Refuses (⟨.ok (.number value), span⟩ :: rest) ⟨.unexpectedToken (.number value), span⟩
  | invalidOperand {opcode kind} (span c place rest) (h : operandKind? opcode = some kind) :
      Refuses (⟨.ok (.mnemonic opcode), span⟩ :: ⟨.error c, place⟩ :: rest)
        ⟨.invalidToken c, place⟩
  | wrongOperand {opcode kind token} (span place rest) (h : operandKind? opcode = some kind)
      (htoken : ¬ kind.Admits token) :
      Refuses (⟨.ok (.mnemonic opcode), span⟩ :: ⟨.ok token, place⟩ :: rest)
        ⟨.missingOperand opcode kind.phrase, span⟩
  | noOperand {opcode kind} (span) (h : operandKind? opcode = some kind) :
      Refuses [⟨.ok (.mnemonic opcode), span⟩] ⟨.missingOperand opcode kind.phrase, span⟩

/-- The tokens are read up to a place where they begin with no item. -/
def RefusedAt (tokens : Tokens) (e : Located Refusal) : Prop :=
  ∃ before items rest, tokens = before ++ rest ∧ Reads before items ∧ Refuses rest e

variable {tokens : Tokens} {e : Located Refusal}

/-- Each item has tokens of its own among those that are read. -/
theorem Reads.exists_written {located : List (Located Item)} {item : Located Item}
    (h : Reads tokens located) (hitem : item ∈ located) :
    ∃ before front after, tokens = before ++ (front ++ after) ∧ Written item front := by
  induction h with
  | nil => cases hitem
  | @cons first front tokens items hfirst _ ih =>
      rcases List.mem_cons.1 hitem with rfl | hitem
      · exact ⟨[], front, tokens, rfl, hfirst⟩
      · obtain ⟨before, front', after, rfl, hwritten⟩ := ih hitem
        exact ⟨front ++ before, front', after, (List.append_assoc _ _ _).symm, hwritten⟩

theorem Reads.length_le {located : List (Located Item)} (h : Reads tokens located) :
    located.length ≤ tokens.length := by
  induction h with
  | nil => exact Nat.le_refl 0
  | cons hitem _ ih =>
      rw [List.length_append, List.length_cons]
      cases hitem <;> simp <;> omega

theorem entries_append {item : Located Item} {front : Tokens} (h : Written item front)
    (rest : Tokens) : entries (front ++ rest) =
      entries rest >>= fun later => .ok (⟨item.val.entry, item.span⟩ :: later) := by
  cases h with
  | label name span =>
      rw [List.singleton_append, entries]
      rfl
  | @alone c span hoperand =>
      rw [List.singleton_append, entries]
      cases c with
      | ret | arith op | pop => rfl
      | _ => cases hoperand
  | @along c token span place hoperand =>
      rw [List.cons_append, List.singleton_append, entries]
      cases c with
      | jump target | call target | set name | get name | unset name =>
          generalize hname : Command.operand _ = operand at hoperand
          cases hoperand with
          | name written | mnemonic opcode =>
              cases hname
              rfl
          | number value => cases hname
      | push value | interrupt value =>
          generalize hname : Command.operand _ = operand at hoperand
          cases hoperand with
          | number value =>
              cases hname
              rfl
          | name written | mnemonic opcode => cases hname
      | ret | arith op | pop => cases hoperand

theorem entries_of_refuses (h : Refuses tokens e) : entries tokens = .error e := by
  cases h with
  | invalid c span rest => rw [entries]
  | strayName written span rest =>
      rw [entries]
      · rintro name ⟨⟩
      · rintro opcode ⟨⟩
  | strayNumber value span rest =>
      rw [entries]
      · rintro name ⟨⟩
      · rintro opcode ⟨⟩
  | @invalidOperand opcode kind span c place rest hkind =>
      rw [entries]
      cases opcode with
      | ret | arith op | pop => cases hkind
      | _ => rfl
  | @wrongOperand opcode kind token span place rest hkind htoken =>
      rw [entries]
      cases opcode with
      | jump | call | set | get | unset =>
          cases hkind
          cases token with
          | mnemonic _ | name _ => exact absurd trivial htoken
          | label _ | number _ => rfl
      | push | interrupt =>
          cases hkind
          cases token with
          | number _ => exact absurd trivial htoken
          | mnemonic _ | label _ | name _ => rfl
      | ret | arith op | pop => cases hkind
  | @noOperand opcode kind span hkind =>
      rw [entries]
      cases opcode with
      | jump | call | set | get | unset | push | interrupt =>
          cases hkind
          rfl
      | ret | arith op | pop => cases hkind

theorem exists_command_alone {opcode : Opcode} (h : operandKind? opcode = none) :
    ∃ c : Command, c.opcode = opcode ∧ c.operand = .none := by
  cases opcode with
  | ret => exact ⟨.ret, rfl, rfl⟩
  | arith op => exact ⟨.arith op, rfl, rfl⟩
  | pop => exact ⟨.pop, rfl, rfl⟩
  | _ => cases h

theorem exists_givenBy_name {token : Token} (h : OperandKind.name.Admits token) :
    ∃ name, (Operand.name name).GivenBy token := by
  cases token with
  | name written => exact ⟨written, .name written⟩
  | mnemonic opcode => exact ⟨opcode.mnemonic, .mnemonic opcode⟩
  | label written => cases h
  | number value => cases h

theorem exists_givenBy_number {token : Token} (h : OperandKind.number.Admits token) :
    ∃ value, (Operand.number value).GivenBy token := by
  cases token with
  | number value => exact ⟨value, .number value⟩
  | mnemonic opcode => cases h
  | label written => cases h
  | name written => cases h

theorem exists_command_along {opcode : Opcode} {kind : OperandKind} {token : Token}
    (h : operandKind? opcode = some kind) (htoken : kind.Admits token) :
    ∃ c : Command, c.opcode = opcode ∧ c.operand.GivenBy token := by
  cases kind with
  | name =>
      obtain ⟨name, hgiven⟩ := exists_givenBy_name htoken
      cases opcode with
      | jump => exact ⟨.jump name, rfl, hgiven⟩
      | call => exact ⟨.call name, rfl, hgiven⟩
      | set => exact ⟨.set name, rfl, hgiven⟩
      | get => exact ⟨.get name, rfl, hgiven⟩
      | unset => exact ⟨.unset name, rfl, hgiven⟩
      | _ => cases h
  | number =>
      obtain ⟨value, hgiven⟩ := exists_givenBy_number htoken
      cases opcode with
      | push => exact ⟨.push value, rfl, hgiven⟩
      | interrupt => exact ⟨.interrupt value, rfl, hgiven⟩
      | _ => cases h

/-- A mnemonic begins an item, or what is behind it is not the operand that goes with it. -/
theorem mnemonic_begins (opcode : Opcode) (span : Span) (rest : Tokens) :
    (∃ item front later, (⟨.ok (.mnemonic opcode), span⟩ :: rest : Tokens) = front ++ later ∧
        later.length < rest.length + 1 ∧ Written item front) ∨
      ∃ e, Refuses (⟨.ok (.mnemonic opcode), span⟩ :: rest) e := by
  cases hkind : operandKind? opcode with
  | none =>
      obtain ⟨c, rfl, hoperand⟩ := exists_command_alone hkind
      exact .inl ⟨_, _, rest, rfl, Nat.lt_succ_self _, .alone span hoperand⟩
  | some kind =>
      rcases rest with _ | ⟨⟨c | token, place⟩, later⟩
      · exact .inr ⟨_, .noOperand span hkind⟩
      · exact .inr ⟨_, .invalidOperand span c place later hkind⟩
      · by_cases htoken : kind.Admits token
        · obtain ⟨c, rfl, hoperand⟩ := exists_command_along hkind htoken
          exact .inl ⟨_, _, later, rfl, Nat.lt_succ_of_lt (Nat.lt_succ_self _),
            .along span place hoperand⟩
        · exact .inr ⟨_, .wrongOperand span place later hkind htoken⟩

theorem begins (tokens : Tokens) : tokens = [] ∨
    (∃ item front later, tokens = front ++ later ∧ later.length < tokens.length ∧
      Written item front) ∨ ∃ e, Refuses tokens e := by
  rcases tokens with _ | ⟨⟨c | token, span⟩, rest⟩
  · exact .inl rfl
  · exact .inr (.inr ⟨_, .invalid c span rest⟩)
  · refine .inr ?_
    cases token with
    | mnemonic opcode => exact mnemonic_begins opcode span rest
    | label name => exact .inl ⟨_, _, rest, rfl, Nat.lt_succ_self _, .label name span⟩
    | name written => exact .inr ⟨_, .strayName written span rest⟩
    | number value => exact .inr ⟨_, .strayNumber value span rest⟩

theorem reads_or_refusedAt (tokens : Tokens) :
    (∃ located, Reads tokens located) ∨ ∃ e, RefusedAt tokens e := by
  induction hlength : tokens.length using Nat.strongRecOn generalizing tokens with
  | ind n ih =>
      obtain rfl | ⟨item, front, later, rfl, hlater, hitem⟩ | ⟨e, hrefuses⟩ := begins tokens
      · exact .inl ⟨[], .nil⟩
      · rcases ih later.length (hlength ▸ hlater) later rfl with
          ⟨located, hreads⟩ | ⟨e, before, located, rest, rfl, hreads, hrefuses⟩
        · exact .inl ⟨item :: located, .cons hitem hreads⟩
        · exact .inr ⟨e, front ++ before, item :: located, rest, (List.append_assoc _ _ _).symm,
            .cons hitem hreads, hrefuses⟩
      · exact .inr ⟨e, [], [], tokens, rfl, .nil, hrefuses⟩

theorem entries_of_reads {located : List (Located Item)} (h : Reads tokens located) :
    entries tokens = .ok (entriesOf located) := by
  induction h with
  | nil => rw [entries, entriesOf, List.map_nil]
  | cons hitem _ ih =>
      rw [entries_append hitem, ih]
      rfl

theorem entries_of_refusedAt (h : RefusedAt tokens e) : entries tokens = .error e := by
  obtain ⟨before, located, rest, rfl, hreads, hrefuses⟩ := h
  induction hreads with
  | nil => exact entries_of_refuses hrefuses
  | cons hitem _ ih =>
      rw [List.append_assoc, entries_append hitem, ih]
      rfl

theorem Reads.unique {located located' : List (Located Item)} (h : Reads tokens located)
    (h' : Reads tokens located') : located = located' :=
  entriesOf_inj.1 (Except.ok.inj ((entries_of_reads h).symm.trans (entries_of_reads h')))

/-- Whatever is read, is read as the entries of items: no mnemonic comes with an operand that does
not go with it. -/
theorem reads_of_entries {read : List (Located Entry)} (h : entries tokens = .ok read) :
    ∃ located, Reads tokens located ∧ read = entriesOf located := by
  obtain ⟨located, hreads⟩ | ⟨e, hrefused⟩ := reads_or_refusedAt tokens
  · rw [entries_of_reads hreads] at h
    cases h
    exact ⟨located, hreads, rfl⟩
  · rw [entries_of_refusedAt hrefused] at h
    cases h

theorem entries_eq_ok_iff {located : List (Located Item)} :
    entries tokens = .ok (entriesOf located) ↔ Reads tokens located := by
  refine ⟨fun h => ?_, entries_of_reads⟩
  obtain ⟨located', hreads, heq⟩ := reads_of_entries h
  exact entriesOf_inj.1 heq ▸ hreads

theorem entries_eq_error_iff : entries tokens = .error e ↔ RefusedAt tokens e := by
  refine ⟨fun h => ?_, entries_of_refusedAt⟩
  obtain ⟨located, hreads⟩ | ⟨e', hrefused⟩ := reads_or_refusedAt tokens
  · rw [entries_of_reads hreads] at h
    cases h
  · rw [entries_of_refusedAt hrefused] at h
    cases h
    exact hrefused

theorem assembleWith_ok {hasher : String → UInt64} {text : List Char} {image : Image}
    (h : assembleWith hasher text = .ok image) :
    ∃ located, Reads (Assembly.tokens text) located ∧
      Image.ofEntries hasher (entriesOf located) = .ok image := by
  obtain ⟨read, hread, hofEntries⟩ := bind_eq_ok_iff.1 h
  obtain ⟨located, hreads, rfl⟩ := reads_of_entries hread
  exact ⟨located, hreads, hofEntries⟩

theorem assembleWith_error {hasher : String → UInt64} {text : List Char}
    (h : assembleWith hasher text = .error e) :
    RefusedAt (Assembly.tokens text) e ∨ ∃ located, Reads (Assembly.tokens text) located ∧
      Image.ofEntries hasher (entriesOf located) = .error e := by
  obtain hread | ⟨read, hread, hofEntries⟩ := bind_eq_error_iff.1 h
  · exact .inl (entries_eq_error_iff.1 hread)
  · obtain ⟨located, hreads, rfl⟩ := reads_of_entries hread
    exact .inr ⟨located, hreads, hofEntries⟩

end StackCalc.Assembly
