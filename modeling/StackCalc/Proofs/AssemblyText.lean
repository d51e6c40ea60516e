import StackCalc.Proofs.NumberText
import StackCalc.Proofs.Units

/-!
# Assembly read back from its lines

Lines whose names are names and whose numbers are finite are read as the items they were written
from, a mnemonic in the place of a name included. The text of a line is followed here through the
lexer to its tokens, and the tokens of all lines through the reader to the items.
-/

namespace StackCalc.Assembly

/-- A word that the lexer takes as a whole. -/
def IsName (name : String) : Prop :=
  ∃ c tail, name.toList = c :: tail ∧ Lexer.startsName c = true ∧
    ∀ x ∈ tail, Lexer.continuesName x = true

namespace Lexer

/-- What lets no blank and no semicolon pass begins a token. -/
theorem not_isBlank_of {p : Char → Bool} {c : Char} (h : p c = true)
    (hp : [' ', '\t', '\r', '\n', '\x0c', ';'].any p = false) :
    Text.isBlank c = false ∧ c ≠ ';' := by
  have hne : ∀ b ∈ [' ', '\t', '\r', '\n', '\x0c', ';'], c ≠ b := by
    rintro b hb rfl
    exact List.any_eq_false.1 hp c hb h
  simp only [List.mem_cons, List.not_mem_nil, or_false, forall_eq_or_imp, forall_eq] at hne
  simp [Text.isBlank, hne]

theorem not_isBlank_of_startsName {c : Char} (h : startsName c = true) :
    Text.isBlank c = false ∧ c ≠ ';' := not_isBlank_of h rfl

theorem not_isBlank_of_isDigit {c : Char} (h : c.isDigit = true) :
    Text.isBlank c = false ∧ c ≠ ';' := not_isBlank_of h rfl

theorem not_startsName_of_isDigit {c : Char} (h : c.isDigit = true) : startsName c = false := by
  by_contra hs
  have hnine := (Char.isDigit_iff_toNat.1 h).2
  have hsmall {low : Char} (hlow : '9'.toNat < low.toNat) : ¬ low.val ≤ c.val := by
    intro hle
    have hlow' : low.toNat ≤ c.toNat := hle
    omega
  simp only [startsName, Bool.or_eq_true, decide_eq_true_eq, Bool.not_eq_false] at hs
  rcases hs with (halpha | rfl) | rfl
  · rcases Bool.or_eq_true_iff.1 halpha with hupper | hlower
    · exact hsmall (by decide) (of_decide_eq_true hupper).1
    · exact hsmall (by decide) (of_decide_eq_true (Bool.and_eq_true_iff.1 hlower).1)
  · cases h
  · cases h

variable {start : Nat} {c : Char} {rest : List Char}

theorem tokensFrom_blank (h : Text.isBlank c = true) :
    tokensFrom start (c :: rest) = tokensFrom (start + c.utf8Size) rest := by
  rw [tokensFrom, if_pos h]

theorem tokensFrom_spaces (n : Nat) :
    tokensFrom start (List.replicate n ' ' ++ rest) = tokensFrom (start + n) rest := by
  induction n generalizing start with
  | zero => rfl
  | succ n ih =>
      rw [List.replicate_succ, List.cons_append, tokensFrom_blank (by rfl), ih]
      congr 1
      change start + 1 + n = _
      omega

theorem tokensFrom_scan {scanned : Except Char Token} {tail : List Char}
    (hb : Text.isBlank c = false ∧ c ≠ ';') (hs : scan c (tail ++ rest) = (scanned, tail)) :
    ∃ stop, tokensFrom start (c :: tail ++ rest) =
      ⟨scanned, start, stop⟩ :: tokensFrom stop rest := by
  refine ⟨start + Text.byteLength (c :: tail), ?_⟩
  rw [List.cons_append, tokensFrom, if_neg (by simp [hb.1]), if_neg hb.2]
  simp only [hs, List.drop_left]

theorem tokensFrom_word (start : Nat) (rest : List Char) {name : String} {d : Char}
    (h : IsName name) (hd : continuesName d = false) (hcolon : d ≠ ':') :
    ∃ stop, tokensFrom start (name.toList ++ d :: rest) =
      ⟨.ok (word name), start, stop⟩ :: tokensFrom stop (d :: rest) := by
  obtain ⟨c, tail, hname, hstart, htail⟩ := h
  have htake : (tail ++ d :: rest).takeWhile continuesName = tail :=
    Decimal.takeWhile_append_of_all htail (by simp [hd])
  rw [hname]
  refine tokensFrom_scan (not_isBlank_of_startsName hstart) ?_
  have hof : String.ofList (c :: tail) = name := by rw [← hname, String.ofList_toList]
  simp [scan, hstart, htake, hof, hcolon]

theorem tokensFrom_label (start : Nat) (rest : List Char) {name : String} (h : IsName name) :
    ∃ stop, tokensFrom start (name.toList ++ ':' :: rest) =
      ⟨.ok (.label name), start, stop⟩ :: tokensFrom stop rest := by
  obtain ⟨c, tail, hname, hstart, htail⟩ := h
  have htake : (tail ++ ':' :: rest).takeWhile continuesName = tail :=
    Decimal.takeWhile_append_of_all htail (by simp; decide)
  have happ : name.toList ++ ':' :: rest = c :: (tail ++ [':']) ++ rest := by simp [hname]
  rw [happ]
  refine tokensFrom_scan (not_isBlank_of_startsName hstart) ?_
  have hof : String.ofList (c :: tail) = name := by rw [← hname, String.ofList_toList]
  simp [scan, hstart, htake, hof]

theorem numberTail_whole {digits : List Char} (h : ∀ x ∈ digits, x.isDigit = true) :
    numberTail (digits ++ '\n' :: rest) = digits := by
  have htake : (digits ++ '\n' :: rest).takeWhile Char.isDigit = digits :=
    Decimal.takeWhile_append_of_all h (by simp)
  simp [numberTail, htake, fractionTail, exponentTail]

theorem numberTail_pointed {digits fraction : List Char} (h : ∀ x ∈ digits, x.isDigit = true)
    (hne : fraction ≠ []) (h' : ∀ x ∈ fraction, x.isDigit = true) :
    numberTail (digits ++ '.' :: fraction ++ '\n' :: rest) = digits ++ '.' :: fraction := by
  have htake : (digits ++ '.' :: (fraction ++ '\n' :: rest)).takeWhile Char.isDigit = digits :=
    Decimal.takeWhile_append_of_all h (by simp)
  have htake' : (fraction ++ '\n' :: rest).takeWhile Char.isDigit = fraction :=
    Decimal.takeWhile_append_of_all h' (by simp)
  have hfraction : fractionTail ('.' :: (fraction ++ '\n' :: rest)) = '.' :: fraction := by
    cases fraction with
    | nil => exact absurd rfl hne
    | cons x fraction => rw [fractionTail, htake']
  simp [numberTail, htake, hfraction, exponentTail]

theorem numberTail_numeral {text : List Char} (h : Numeral text) :
    numberTail (text ++ '\n' :: rest) = text := by
  cases h with
  | whole hne h => exact numberTail_whole h
  | pointed hne h hne' h' => exact numberTail_pointed h hne' h'

theorem numberTail_of_cons {tail : List Char} (h : Numeral (c :: tail)) :
    numberTail (tail ++ '\n' :: rest) = tail := by
  generalize htext : c :: tail = text at h
  cases h with
  | whole hne h =>
      subst htext
      exact numberTail_whole fun x hx => h x (by simp [hx])
  | @pointed digits fraction hne h hne' h' =>
      cases digits with
      | nil => exact absurd rfl hne
      | cons d digits =>
          obtain ⟨rfl, rfl⟩ := List.cons.inj htext
          exact numberTail_pointed (fun x hx => h x (by simp [hx])) hne' h'

theorem tokensFrom_number (start : Nat) (rest : List Char) {a : Number}
    (h : a.isFinite = true) :
    ∃ stop, tokensFrom start (a.chars ++ '\n' :: rest) =
      ⟨.ok (.number a), start, stop⟩ :: tokensFrom stop ('\n' :: rest) := by
  have hread := a.read_chars h
  have hnum := a.numeral_magnitudeText
  obtain ⟨c, tail, hc, hdigit⟩ := hnum.cons
  rw [a.chars_of_isFinite h] at hread ⊢
  by_cases hneg : a.isNegative = true
  · rw [if_pos hneg, List.singleton_append] at hread ⊢
    refine tokensFrom_scan ⟨rfl, by decide⟩ ?_
    have hstart : startsNumber '-' (a.magnitudeText ++ '\n' :: rest) = true := by
      simp [startsNumber, hc, hdigit]
    have hname : startsName '-' = false := rfl
    simp [scan, hname, hstart, numberTail_numeral hnum, hread]
  · rw [if_neg hneg, List.nil_append, hc] at hread ⊢
    rw [hc] at hnum
    refine tokensFrom_scan (not_isBlank_of_isDigit hdigit) ?_
    have hstart : startsNumber c (tail ++ '\n' :: rest) = true := by simp [startsNumber, hdigit]
    simp [scan, not_startsName_of_isDigit hdigit, hstart, numberTail_of_cons hnum, hread]

theorem isName_mnemonic (opcode : Opcode) : IsName opcode.mnemonic := by
  rcases opcode with _ | _ | _ | op | _ | _ | _ | _ | _ | _
  case arith => cases op <;> exact ⟨_, _, rfl, rfl, List.all_eq_true.1 rfl⟩
  all_goals exact ⟨_, _, rfl, rfl, List.all_eq_true.1 rfl⟩

theorem word_mnemonic (opcode : Opcode) : word opcode.mnemonic = .mnemonic opcode := by
  cases opcode with
  | arith op => cases op <;> decide
  | _ => decide

/-- In the place of an operand every word is a name, a mnemonic as well. -/
theorem givenBy_word (name : String) : (Operand.name name).GivenBy (word name) := by
  rw [word]
  cases h : Opcode.ofMnemonic? name with
  | none => exact .name name
  | some opcode =>
      have hmnemonic : opcode.mnemonic = name := by simpa using List.find?_some h
      exact hmnemonic ▸ .mnemonic opcode

end Lexer

/-- What the reader takes a command as: its mnemonic and its operand. -/
def Command.lexemes (command : Command) : List Token :=
  .mnemonic command.opcode ::
    match command with
    | .jump name | .call name | .set name | .get name | .unset name => [Lexer.word name]
    | .push value | .interrupt value => [.number value]
    | .ret | .arith _ | .pop => []

def Item.lexemes : Item → List Token
  | .label name => [.label name]
  | .command c => c.lexemes

/-- Names are words and numbers are finite. -/
def Item.Readable : Item → Prop
  | .label name => IsName name
  | .command (.jump name) | .command (.call name) | .command (.set name)
  | .command (.get name) | .command (.unset name) => IsName name
  | .command (.push value) | .command (.interrupt value) => value.isFinite = true
  | .command .ret | .command (.arith _) | .command .pop => True

namespace Lexer

variable {start : Nat} {rest : List Char}

theorem tokensFrom_bare (opcode : Opcode) :
    ∃ toks stop, tokensFrom start (opcode.mnemonic.toList ++ '\n' :: rest) =
      toks ++ tokensFrom stop ('\n' :: rest) ∧ toks.map (·.val) = [.ok (.mnemonic opcode)] := by
  obtain ⟨stop, h⟩ := tokensFrom_word start rest (d := '\n') (isName_mnemonic opcode) rfl
    (by decide)
  rw [word_mnemonic] at h
  exact ⟨[_], stop, h, rfl⟩

theorem tokensFrom_named (opcode : Opcode) {name : String} (hname : IsName name) :
    ∃ toks stop,
      tokensFrom start ((opcode.mnemonic ++ " " ++ name).toList ++ '\n' :: rest) =
        toks ++ tokensFrom stop ('\n' :: rest) ∧
      toks.map (·.val) = [.ok (.mnemonic opcode), .ok (word name)] := by
  obtain ⟨stop, h⟩ := tokensFrom_word start (name.toList ++ '\n' :: rest) (d := ' ')
    (isName_mnemonic opcode) rfl (by decide)
  obtain ⟨stop', h'⟩ := tokensFrom_word (stop + 1) rest (d := '\n') hname rfl (by decide)
  refine ⟨[⟨.ok (.mnemonic opcode), start, stop⟩, ⟨.ok (word name), stop + 1, stop'⟩], stop', ?_,
    rfl⟩
  have happ : (opcode.mnemonic ++ " " ++ name).toList ++ '\n' :: rest =
      opcode.mnemonic.toList ++ ' ' :: (name.toList ++ '\n' :: rest) := by simp
  rw [happ, h, word_mnemonic, tokensFrom_blank (by rfl)]
  exact congrArg _ h'

theorem tokensFrom_numbered (opcode : Opcode) {a : Number} (ha : a.isFinite = true) :
    ∃ toks stop,
      tokensFrom start ((opcode.mnemonic ++ " " ++ a.text).toList ++ '\n' :: rest) =
        toks ++ tokensFrom stop ('\n' :: rest) ∧
      toks.map (·.val) = [.ok (.mnemonic opcode), .ok (.number a)] := by
  obtain ⟨stop, h⟩ := tokensFrom_word start (a.chars ++ '\n' :: rest) (d := ' ')
    (isName_mnemonic opcode) rfl (by decide)
  obtain ⟨stop', h'⟩ := tokensFrom_number (stop + 1) rest ha
  refine ⟨[⟨.ok (.mnemonic opcode), start, stop⟩, ⟨.ok (.number a), stop + 1, stop'⟩], stop', ?_,
    rfl⟩
  have happ : (opcode.mnemonic ++ " " ++ a.text).toList ++ '\n' :: rest =
      opcode.mnemonic.toList ++ ' ' :: (a.chars ++ '\n' :: rest) := by simp [Number.text]
  rw [happ, h, word_mnemonic, tokensFrom_blank (by rfl)]
  exact congrArg _ h'

theorem tokensFrom_item (start : Nat) (rest : List Char) (i : Item) (hi : i.Readable) :
    ∃ toks stop, tokensFrom start (i.text.toList ++ '\n' :: rest) =
      toks ++ tokensFrom stop ('\n' :: rest) ∧ toks.map (·.val) = i.lexemes.map .ok := by
  cases i with
  | label name =>
      obtain ⟨stop, h⟩ := tokensFrom_label start ('\n' :: rest) hi
      have happ : (Item.label name).text.toList ++ '\n' :: rest =
          name.toList ++ ':' :: '\n' :: rest := by simp [Item.text]
      rw [happ, h]
      exact ⟨[_], stop, rfl, rfl⟩
  | command c =>
      cases c with
      | jump name | call name | set name | get name | unset name => exact tokensFrom_named _ hi
      | push value | interrupt value => exact tokensFrom_numbered _ hi
      | ret | arith op | pop => exact tokensFrom_bare _

end Lexer

/-- The items that lines stand for. -/
def Line.items (lines : List Line) : List Item :=
  lines.filterMap fun
    | .blank => none
    | .item _ i => some i

@[simp] theorem Line.items_nil : Line.items [] = [] := rfl

@[simp] theorem Line.items_blank (lines : List Line) :
    Line.items (.blank :: lines) = Line.items lines := rfl

@[simp] theorem Line.items_item (depth : Nat) (i : Item) (lines : List Line) :
    Line.items (.item depth i :: lines) = i :: Line.items lines := rfl

@[simp] theorem Line.items_append (xs ys : List Line) :
    Line.items (xs ++ ys) = Line.items xs ++ Line.items ys := List.filterMap_append

@[simp] theorem Line.items_commands (depth : Nat) (cs : List Command) :
    Line.items (Line.commands depth cs) = cs.map .command := by
  induction cs with
  | nil => rfl
  | cons c cs ih =>
      rw [List.map_cons, ← ih]
      rfl

theorem tokensFrom_lines (lines : List Line) (h : ∀ i ∈ Line.items lines, i.Readable)
    (start : Nat) : (tokensFrom start (Text.unlines (lines.map (·.text))).toList).map (·.val) =
      (Line.items lines).flatMap fun i => i.lexemes.map .ok := by
  induction lines generalizing start with
  | nil =>
      change (tokensFrom start []).map _ = _
      rw [tokensFrom]
      rfl
  | cons line lines ih =>
      have hcons : (Text.unlines ((line :: lines).map (·.text))).toList =
          line.text.toList ++ '\n' :: (Text.unlines (lines.map (·.text))).toList := by
        simp [Text.unlines]
      rw [hcons]
      cases line with
      | blank =>
          change (tokensFrom start ('\n' :: _)).map _ = _
          rw [Lexer.tokensFrom_blank (by rfl)]
          exact ih h _
      | item depth i =>
          have hspaces : (Line.item depth i).text.toList = List.replicate (4 * depth) ' ' ++
              i.text.toList := by simp [Line.text, Text.indented]
          obtain ⟨toks, stop, htoks, hvals⟩ := Lexer.tokensFrom_item
            (start + 4 * depth) (Text.unlines (lines.map (·.text))).toList i (h i (by simp))
          have hlines : ∀ j ∈ Line.items lines, j.Readable := fun j hj => h j (by simp [hj])
          rw [hspaces, List.append_assoc, Lexer.tokensFrom_spaces, htoks, List.map_append, hvals,
            Lexer.tokensFrom_blank (by rfl), ih hlines]
          simp

theorem written_of_lexemes (i : Item) {toks : Tokens}
    (h : toks.map (·.val) = i.lexemes.map .ok) : ∃ span, Written ⟨i, span⟩ toks := by
  cases i with
  | label name =>
      obtain ⟨⟨v, span⟩, rfl, rfl⟩ := List.map_eq_singleton_iff.1 h
      exact ⟨span, .label name span⟩
  | command c =>
      obtain ⟨⟨v, span⟩, operand, rfl, rfl, hoperand⟩ := List.map_eq_cons_iff.1 h
      cases c with
      | jump name | call name | set name | get name | unset name =>
          obtain ⟨⟨v, place⟩, rfl, rfl⟩ := List.map_eq_singleton_iff.1 hoperand
          exact ⟨_, .along span place (Lexer.givenBy_word name)⟩
      | push value | interrupt value =>
          obtain ⟨⟨v, place⟩, rfl, rfl⟩ := List.map_eq_singleton_iff.1 hoperand
          exact ⟨_, .along span place (.number value)⟩
      | ret | arith op | pop =>
          obtain rfl := List.map_eq_nil_iff.1 hoperand
          exact ⟨_, .alone span rfl⟩

/-- The reader gives back the items from their lexemes. -/
theorem reads_of_lexemes (is : List Item) (toks : Tokens)
    (h : toks.map (·.val) = is.flatMap fun i => i.lexemes.map .ok) :
    ∃ located, Reads toks located ∧ located.map (·.val) = is := by
  induction is generalizing toks with
  | nil =>
      obtain rfl : toks = [] := by simpa using h
      exact ⟨[], .nil, rfl⟩
  | cons i is ih =>
      obtain ⟨front, rest, rfl, hfront, hrest⟩ := List.map_eq_append_iff.1 h
      obtain ⟨span, hwritten⟩ := written_of_lexemes i hfront
      obtain ⟨located, hreads, hvals⟩ := ih rest hrest
      exact ⟨⟨i, span⟩ :: located, .cons hwritten hreads, by simp [hvals]⟩

theorem reads_of_lines (lines : List Line) (h : ∀ i ∈ Line.items lines, i.Readable) :
    ∃ located, Reads (tokens (Text.unlines (lines.map (·.text))).toList) located ∧
      located.map (·.val) = Line.items lines :=
  reads_of_lexemes _ _ (tokensFrom_lines lines h 0)

end StackCalc.Assembly
