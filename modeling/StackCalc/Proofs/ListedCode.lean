import StackCalc.Proofs.Outlines

/-!
# Code told by its listing

A listing without labels tells the code that it was made from. In a line the mnemonic tells the kind
of the instruction, and what is behind it the operand, since every kind writes its operands so that
they can be read back. One thing is not shown: which bits a pushed value has that is no number.
Instructions with the same text are equally long, so the lines tell where the next one begins.
-/

namespace StackCalc

namespace Text

/-- The value of a hexadecimal digit in lower case. -/
def digitValue (c : Char) : Nat :=
  if c.isDigit then c.toNat - '0'.toNat else c.toNat - 'a'.toNat + 10

def readHex (digits : List Char) : Nat := digits.foldl (fun n c => 16 * n + digitValue c) 0

theorem digitValue_digitChar : ∀ n < 16, digitValue (Nat.digitChar n) = n := by decide

theorem readHex_toDigits (n : Nat) : readHex (Nat.toDigits 16 n) = n := by
  induction n using Nat.strongRecOn with
  | ind n ih =>
      by_cases hsmall : n < 16
      · rw [Nat.toDigits_of_lt_base hsmall, readHex, List.foldl_cons, List.foldl_nil, Nat.mul_zero,
          Nat.zero_add, digitValue_digitChar n hsmall]
      · have hquotient : readHex (Nat.toDigits 16 (n / 16)) = n / 16 := ih (n / 16) (by omega)
        have hlast : digitValue (Nat.digitChar (n % 16)) = n % 16 :=
          digitValue_digitChar _ (Nat.mod_lt n (by omega))
        rw [readHex] at hquotient
        rw [Nat.toDigits_of_base_le (by omega) (Nat.le_of_not_lt hsmall), readHex,
          List.foldl_append, hquotient, List.foldl_cons, List.foldl_nil, hlast]
        exact Nat.div_add_mod n 16

theorem readHex_leftpad (width : Nat) (digits : List Char) :
    readHex (digits.leftpad width '0') = readHex digits := by
  have hzeros (count : Nat) :
      (List.replicate count '0').foldl (fun n c => 16 * n + digitValue c) 0 = 0 := by
    induction count with
    | zero => rfl
    | succ count ih => exact ih
  rw [readHex, List.leftpad, List.foldl_append, hzeros, readHex]

/-- Zeros in front do not make two numbers look alike. -/
theorem hex_inj {width n n' : Nat} (h : hex width n = hex width n') : n = n' := by
  have hdigits := congrArg readHex (String.ofList_injective h)
  rwa [readHex_leftpad, readHex_leftpad, readHex_toDigits, readHex_toDigits] at hdigits

theorem address_inj {n n' : Nat} (h : address n = address n') : n = n' :=
  hex_inj ((String.append_right_inj _).1 h)

theorem hashName_inj {hash hash' : UInt64} (h : hashName hash = hashName hash') : hash = hash' :=
  UInt64.toNat_inj.1 (hex_inj ((String.append_right_inj _).1 h))

end Text

namespace Number

def nan : Number := ⟨0x7ff8000000000000⟩

/-- The number, but one and the same for all bits that stand for no number. -/
def canonical (a : Number) : Number := if a.isNaN then nan else a

variable {a b : Number}

theorem canonical_of_isFinite (h : a.isFinite = true) : a.canonical = a := by
  rw [canonical, a.isNaN_of_isFinite h, if_neg Bool.false_ne_true]

theorem abs_of_infinite (hfinite : a.isFinite = false) (hnan : a.isNaN = false) :
    a.abs = infinity := by
  have hfraction : a.fraction = 0 := by simpa [isNaN, hfinite] using hnan
  have hexponent : a.exponentField = 2047 := by
    have hge : ¬ a.exponentField < 2047 := by simpa [isFinite] using hfinite
    have hlt : a.exponentField < 2048 := Nat.mod_lt _ (by omega)
    omega
  have hbits := a.abs_toNat_eq
  rw [hexponent, hfraction] at hbits
  exact eq_of_bits (UInt64.toNat_inj.1 hbits)

/-- What is not finite has one of three texts. -/
theorem chars_of_not_isFinite (h : a.isFinite = false) :
    (a.canonical = nan ∧ a.chars = ['N', 'a', 'N']) ∨
      (a.canonical = infinity ∧ a.chars = ['i', 'n', 'f']) ∨
      (a.canonical = -infinity ∧ a.chars = ['-', 'i', 'n', 'f']) := by
  by_cases hnan : a.isNaN = true
  · exact .inl ⟨by rw [canonical, if_pos hnan], by rw [chars, if_pos hnan]⟩
  · have habs := abs_of_infinite h (by simpa using hnan)
    rw [canonical, if_neg hnan, chars, if_neg hnan, h]
    cases hsign : a.isNegative with
    | false => exact .inr (.inl ⟨habs ▸ (a.abs_of_not_isNegative hsign).symm, rfl⟩)
    | true => exact .inr (.inr ⟨habs ▸ (a.neg_abs_of_isNegative hsign).symm, rfl⟩)

/-- A digit tells a finite number from the others. -/
theorem isFinite_eq_any_isDigit (a : Number) : a.isFinite = a.chars.any Char.isDigit := by
  cases hfinite : a.isFinite with
  | true =>
      obtain ⟨c, rest, hchars, hdigit⟩ := a.numeral_magnitudeText.cons
      simp [a.chars_of_isFinite hfinite, hchars, hdigit]
  | false =>
      obtain ⟨-, hchars⟩ | ⟨-, hchars⟩ | ⟨-, hchars⟩ := chars_of_not_isFinite hfinite
      all_goals
        rw [hchars]
        rfl

theorem chars_nan : nan.chars = ['N', 'a', 'N'] := by
  have hnan : nan.isNaN = true := by decide +kernel
  rw [chars, if_pos hnan]

theorem text_canonical (a : Number) : a.canonical.text = a.text := by
  by_cases hnan : a.isNaN = true
  · rw [canonical, if_pos hnan, text, text, chars_nan, chars, if_pos hnan]
  · rw [canonical, if_neg hnan]

/-- The text of a number tells the number, and the text of what is none tells that it is none. -/
theorem text_eq_text_iff : a.text = b.text ↔ a.canonical = b.canonical := by
  constructor
  · intro h
    have hchars : a.chars = b.chars := String.ofList_injective h
    have hsame : a.isFinite = b.isFinite := by
      rw [isFinite_eq_any_isDigit, hchars, ← isFinite_eq_any_isDigit]
    cases ha : a.isFinite with
    | true =>
        have hb : b.isFinite = true := hsame.symm.trans ha
        rw [canonical_of_isFinite ha, canonical_of_isFinite hb, text_inj ha hb h]
    | false =>
        have hb : b.isFinite = false := hsame.symm.trans ha
        -- each of the three texts is the one of a single canonical number
        obtain ⟨hca, hta⟩ | ⟨hca, hta⟩ | ⟨hca, hta⟩ := chars_of_not_isFinite ha
        all_goals
          obtain ⟨hcb, htb⟩ | ⟨hcb, htb⟩ | ⟨hcb, htb⟩ := chars_of_not_isFinite hb
          all_goals first
            | exact hca.trans hcb.symm
            | cases (hta.symm.trans hchars).trans htb
  · intro h
    rw [← a.text_canonical, h, b.text_canonical]

end Number

theorem Opcode.mnemonic_injective : Function.Injective mnemonic := by
  intro opcode opcode' h
  have hword := congrArg Assembly.Lexer.word h
  rw [Assembly.Lexer.word_mnemonic, Assembly.Lexer.word_mnemonic] at hword
  exact Assembly.Token.mnemonic.inj hword

theorem Opcode.blank_not_mem_mnemonic (opcode : Opcode) : ' ' ∉ opcode.mnemonic.toList := by
  cases opcode with
  | arith op => cases op <;> decide
  | _ => decide

namespace Instruction

variable {i j : Instruction}

def operandText? (i : Instruction) : Option String :=
  Operation.operandText? (fun address => Text.address address.toNat) Text.hashName
    (fun id => toString id.toNat) i

/-- What a line shows behind the mnemonic. -/
def behindMnemonic (i : Instruction) : List Char :=
  match i.operandText? with
  | some operand => ' ' :: operand.toList
  | none => []

theorem toList_text (i : Instruction) :
    i.text.toList = i.opcode.mnemonic.toList ++ i.behindMnemonic := by
  have htext : i.text = match i.operandText? with
      | some operand => i.opcode.mnemonic ++ " " ++ operand
      | none => i.opcode.mnemonic := rfl
  rw [htext, behindMnemonic]
  cases i.operandText? <;> simp

theorem operandText?_eq_of_behindMnemonic (h : i.behindMnemonic = j.behindMnemonic) :
    i.operandText? = j.operandText? := by
  rw [behindMnemonic, behindMnemonic] at h
  cases hi : i.operandText? with
  | none =>
      cases hj : j.operandText? with
      | none => rfl
      | some operand => simp [hi, hj] at h
  | some operand =>
      cases hj : j.operandText? with
      | none => simp [hi, hj] at h
      | some operand' =>
          rw [hi, hj] at h
          rw [String.toList_injective (List.cons.inj h).2]

/-- The instruction, what is pushed taken for one value wherever it is no number. -/
def canonical : Instruction → Instruction
  | .push value => .push value.canonical
  | i => i

theorem opcode_canonical (i : Instruction) : i.canonical.opcode = i.opcode := by
  cases i <;> rfl

theorem encodedLength_eq_of_canonical (h : i.canonical = j.canonical) :
    i.encodedLength = j.encodedLength := by
  have hopcode : i.opcode = j.opcode := by rw [← i.opcode_canonical, h, j.opcode_canonical]
  rw [Operation.encodedLength, Operation.encodedLength, hopcode]

theorem text_canonical (i : Instruction) : i.canonical.text = i.text := by
  cases i with
  | push value => exact congrArg ("push " ++ ·) value.text_canonical
  | _ => rfl

/-- The mnemonic tells the kind, and each kind has its own way to write operands. -/
theorem canonical_eq_of_operandText? (hopcode : i.opcode = j.opcode)
    (h : i.operandText? = j.operandText?) : i.canonical = j.canonical := by
  cases i <;> cases j <;> cases hopcode
  case jump.jump address address' | call.call address address' =>
    have haddress := Text.address_inj (Option.some.inj h)
    rw [UInt32.toNat_inj.1 haddress]
  case push.push value value' =>
    have hvalue := Number.text_eq_text_iff.1 (Option.some.inj h)
    exact congrArg Operation.push hvalue
  case set.set hash hash' | get.get hash hash' | unset.unset hash hash' =>
    rw [Text.hashName_inj (Option.some.inj h)]
  case interrupt.interrupt id id' =>
    have hdigits := String.ofList_injective (Option.some.inj h)
    have hid := congrArg Decimal.readNatural hdigits
    rw [Decimal.readNatural_toDigits, Decimal.readNatural_toDigits] at hid
    rw [UInt8.toNat_inj.1 hid]
  all_goals rfl

theorem text_eq_text_iff : i.text = j.text ↔ i.canonical = j.canonical := by
  constructor
  · intro h
    have hchars := congrArg String.toList h
    rw [toList_text, toList_text] at hchars
    have hmnemonic (k : Instruction) :
        ∀ c ∈ k.opcode.mnemonic.toList, (c != ' ') = true := fun c hc => by
      rw [bne_iff_ne]
      rintro rfl
      exact k.opcode.blank_not_mem_mnemonic hc
    have hblank (k : Instruction) : k.behindMnemonic.head?.all (! · != ' ') = true := by
      rw [behindMnemonic]
      split <;> rfl
    obtain ⟨hkind, hbehind⟩ := Text.append_inj_of_all (hmnemonic i) (hmnemonic j) (hblank i)
      (hblank j) hchars
    exact canonical_eq_of_operandText?
      (Opcode.mnemonic_injective (String.toList_injective hkind))
      (operandText?_eq_of_behindMnemonic hbehind)
  · intro h
    rw [← i.text_canonical, h, j.text_canonical]

end Instruction

namespace Listing

variable {offset : Nat} {i j : Instruction} {is js : List Instruction}

/-- A line of a listing without labels. -/
def plainLine (place : Nat × Instruction) : Line := .code place.1 place.2 []

theorem shown_of_no_labels (places : List (Nat × Instruction)) :
    shown [] places = places.map plainLine := by
  have hnames (address : Nat) : Labels.namesAt [] address = [] := by
    simp [Labels.namesAt]
  have htargets (i : Instruction) : targets [] i = [] := by
    rw [targets]
    split
    · rfl
    · exact hnames _
  have hlines (place : Nat × Instruction) : linesAt [] place = [plainLine place] := by
    rw [linesAt, hnames, htargets]
    rfl
  rw [shown, funext hlines, List.map_eq_flatMap]

theorem text_plainLine_eq_iff :
    (plainLine (offset, i)).text = (plainLine (offset, j)).text ↔ i.text = j.text := by
  simp only [plainLine, Line.text, Line.annotation, String.append_empty]
  exact String.append_right_inj _

/-- Lines of instructions that lie one behind another tell these. -/
theorem map_canonical_eq_iff_lines (offset : Nat) :
    (startingAt offset is).map (fun place => (plainLine place).text) =
        (startingAt offset js).map (fun place => (plainLine place).text) ↔
      is.map Instruction.canonical = js.map Instruction.canonical := by
  induction is generalizing offset js with
  | nil => cases js <;> simp [startingAt]
  | cons i is ih =>
      cases js with
      | nil => simp [startingAt]
      | cons j js =>
          simp only [startingAt, List.map_cons, List.cons.injEq, text_plainLine_eq_iff,
            Instruction.text_eq_text_iff]
          -- the first lines show instructions of one length, so the others begin at one place again
          refine and_congr_right fun hfirst => ?_
          rw [Instruction.encodedLength_eq_of_canonical hfirst, ih]

theorem oneLine_plainLines (places : List (Nat × Instruction)) :
    ∀ line ∈ places.map (fun place => (plainLine place).text), Text.OneLine line := by
  have honeLine : ∀ line ∈ shown [] places, Text.OneLine line.text :=
    oneLine_shown (List.forall_mem_nil _)
  rw [shown_of_no_labels] at honeLine
  intro line hline
  obtain ⟨place, hplace, rfl⟩ := List.mem_map.1 hline
  exact honeLine _ (List.mem_map_of_mem hplace)

end Listing

theorem exists_encodings {code : List UInt8} (h : (instructions code).2 = none) :
    ∃ is, code = is.flatMap Instruction.encode ∧ (instructions code).1 = startingAt 0 is := by
  obtain ⟨is, rest, hcode, hfound, ⟨rfl, -⟩ | ⟨-, e, he, -⟩⟩ := exists_tiles code
  · exact ⟨is, by rw [hcode, List.append_nil], hfound⟩
  · rw [h] at he
    cases he

section Codes

variable {code code' : List UInt8} {text : String}

theorem decodes_of_listing {labels : Labels} (h : listing labels code = .ok text) :
    (instructions code).2 = none := by
  rw [listing] at h
  split at h
  · cases h
  · next found hfound => rw [hfound]

/-- Codes have one listing exactly if they are made of the same instructions, but for the bits of
pushed values that are no numbers. -/
theorem listing_eq_listing_iff (h : (instructions code).2 = none)
    (h' : (instructions code').2 = none) :
    listing [] code = listing [] code' ↔
      ((instructions code).1.map Prod.snd).map Instruction.canonical =
        ((instructions code').1.map Prod.snd).map Instruction.canonical := by
  obtain ⟨is, -, hfound⟩ := exists_encodings h
  obtain ⟨js, -, hfound'⟩ := exists_encodings h'
  rw [Listing.listing_eq_shown h, Listing.listing_eq_shown h', hfound, hfound',
    map_snd_startingAt, map_snd_startingAt, ← Listing.map_canonical_eq_iff_lines 0,
    Listing.shown_of_no_labels, Listing.shown_of_no_labels, List.map_map, List.map_map]
  constructor
  · intro hsame
    exact Text.unlines_inj (Listing.oneLine_plainLines _) (Listing.oneLine_plainLines _)
      (Except.ok.inj hsame)
  · intro hsame
    exact congrArg (Except.ok ∘ Text.unlines) hsame

example : listing [] (Instruction.encode (.push .nan)) =
    listing [] (Instruction.encode (.push (-Number.nan))) := by decide +kernel

/-- Every value that the code pushes is a number. -/
def PushesNumbers (code : List UInt8) : Prop :=
  ∀ offset value, (offset, .push value) ∈ (instructions code).1 → value.isNaN = false

theorem map_canonical_of_pushesNumbers (h : PushesNumbers code) :
    ((instructions code).1.map Prod.snd).map Instruction.canonical =
      (instructions code).1.map Prod.snd := by
  rw [List.map_map]
  refine List.map_congr_left fun place hplace => ?_
  obtain ⟨offset, i⟩ := place
  cases i with
  | push value =>
      have hnumber := h offset value hplace
      simp [Instruction.canonical, Number.canonical, hnumber]
  | _ => rfl

/-- Code that decodes is told by its instructions. -/
theorem eq_of_map_instructions (h : (instructions code).2 = none)
    (h' : (instructions code').2 = none)
    (hsame : (instructions code).1.map Prod.snd = (instructions code').1.map Prod.snd) :
    code = code' := by
  obtain ⟨is, hcode, hfound⟩ := exists_encodings h
  obtain ⟨js, hcode', hfound'⟩ := exists_encodings h'
  rw [hfound, hfound', map_snd_startingAt, map_snd_startingAt] at hsame
  rw [hcode, hcode', hsame]

/-- Two codes with one listing are the same, byte for byte, if they push nothing but numbers. -/
theorem code_eq_of_listing (h : listing [] code = .ok text) (h' : listing [] code' = .ok text)
    (hnumbers : PushesNumbers code) (hnumbers' : PushesNumbers code') : code = code' := by
  have hdecodes := decodes_of_listing h
  have hdecodes' := decodes_of_listing h'
  apply eq_of_map_instructions hdecodes hdecodes'
  rw [← map_canonical_of_pushesNumbers hnumbers, ← map_canonical_of_pushesNumbers hnumbers',
    ← listing_eq_listing_iff hdecodes hdecodes', h, h']

/-- A zero with a sign, an infinity, the last interrupt, and a jump that needs a fifth digit. -/
def oddOperands : List UInt8 :=
  [7, 0, 0, 0, 0, 0, 0, 0, 128, 7, 0, 0, 0, 0, 0, 0, 240, 127, 12, 255, 0, 0, 0, 1, 0]

def oddOperandsListing : String :=
  "    0x0000  push -0\n    0x0009  push inf\n    0x0012  int 255\n    0x0014  jmp 0x10000\n"

theorem odd_operands_listed : listing [] oddOperands = .ok oddOperandsListing ∧
    PushesNumbers oddOperands ∧
    ∀ code, listing [] code = .ok oddOperandsListing → PushesNumbers code → code = oddOperands := by
  have hread : instructions oddOperands =
      (startingAt 0 [.push (-Number.zero), .push .infinity, .interrupt 255, .jump 65536], none) :=
    instructionsFrom_encodings 0
      [.push (-Number.zero), .push .infinity, .interrupt 255, .jump 65536]
  have hlisting : listing [] oddOperands = .ok oddOperandsListing := by
    rw [listing, hread]
    decide +kernel
  have hnumbers : PushesNumbers oddOperands := by
    intro offset value hpush
    rw [hread] at hpush
    simp only [startingAt, List.mem_cons, List.not_mem_nil, Prod.mk.injEq, Operation.push.injEq,
      reduceCtorEq, and_false, or_false] at hpush
    obtain ⟨-, rfl⟩ | ⟨-, rfl⟩ := hpush <;> decide +kernel
  exact ⟨hlisting, hnumbers, fun code h hcode => code_eq_of_listing h hlisting hcode hnumbers⟩

end Codes

end StackCalc
