import StackCalc.Proofs.AssemblyText
import StackCalc.Proofs.JoinedTokens
import StackCalc.Proofs.Vocabulary

/-!
# Words of printed programs

Each word, number and symbol that a program is printed with is read as one token again, blanks
around it or not, provided that what stands behind it does not go on with it.
-/

namespace StackCalc.Source

/-- A name that is read as such. -/
def IsPlainName (name : String) : Prop :=
  IsIdentifier name ∧ name ≠ Keyword.define.text ∧ name ≠ Keyword.giveBack.text

/-- A number that is written without a sign. -/
def IsUnsigned (value : Number) : Prop := value.isFinite = true ∧ value.isNegative = false

/-- From a place on, the text in front of `rest` falls into these tokens. -/
def Lexes (start : Nat) (text : List Char) (toks : List (Located Token)) (stop : Nat)
    (rest : List Char) : Prop :=
  tokensFrom start (text ++ rest) = (tokensFrom stop rest).map (toks ++ ·)

namespace Lexes

variable {start mid stop : Nat} {text text' rest : List Char} {toks toks' : List (Located Token)}

theorem append (h : Lexes start text toks mid (text' ++ rest))
    (h' : Lexes mid text' toks' stop rest) :
    Lexes start (text ++ text') (toks ++ toks') stop rest := by
  rw [Lexes] at h h' ⊢
  rw [List.append_assoc, h, h']
  cases tokensFrom stop rest with
  | error e => rfl
  | ok later => exact congrArg Except.ok (List.append_assoc toks toks' later).symm

theorem cast (h : Lexes start text toks stop rest) (htext : text' = text)
    (htoks : toks' = toks) : Lexes start text' toks' stop rest := htext ▸ htoks ▸ h

end Lexes

namespace Lexer

variable {start : Nat} {c : Char} {text rest before : List Char}

/-- A token ends in front of the text, since the first character does not belong to any that
began before. -/
def separates : List Char → Bool
  | [] => true
  | c :: _ => !continuesName c && c ≠ '.'

theorem not_isBlank_of_startsName (h : startsName c = true) : Text.isBlank c = false :=
  (Assembly.Lexer.not_isBlank_of h rfl).1

theorem not_isBlank_of_isDigit (h : c.isDigit = true) : Text.isBlank c = false :=
  (Assembly.Lexer.not_isBlank_of h rfl).1

theorem not_startsName_of_isDigit (h : c.isDigit = true) : ¬ startsName c = true := by
  intro hstart
  have hassembly : Assembly.Lexer.startsName c = true := by
    unfold Assembly.Lexer.startsName
    rw [startsName] at hstart
    rw [hstart, Bool.true_or]
  rw [Assembly.Lexer.not_startsName_of_isDigit h] at hassembly
  cases hassembly

theorem isDigit_of_separates (h : separates rest = true) :
    rest.head?.all (!Char.isDigit ·) = true := by
  cases rest with
  | nil => rfl
  | cons c rest =>
      rw [separates, Bool.and_eq_true, Bool.not_eq_true'] at h
      have hname := h.1
      simp only [continuesName, Char.isAlphanum, Bool.or_eq_false_iff] at hname
      simp [hname]

theorem lexes_blanks (start : Nat) (rest before : List Char)
    (h : before.all Text.isBlank = true) : ∃ stop, Lexes start before [] stop rest := by
  induction before generalizing start with
  | nil => exact ⟨start, by cases htoks : tokensFrom start rest <;> simp [Lexes, htoks, Except.map]⟩
  | cons c before ih =>
      rw [List.all_cons, Bool.and_eq_true] at h
      obtain ⟨stop, hstop⟩ := ih (start + c.utf8Size) h.2
      refine ⟨stop, ?_⟩
      rw [Lexes, List.cons_append, tokensFrom, if_pos h.1]
      exact hstop

/-- A token and the blanks before it. -/
theorem lexes_scan {tail : List Char} {token : Token} (start : Nat)
    (hbefore : before.all Text.isBlank = true) (hblank : Text.isBlank c = false)
    (hscan : scan c (tail ++ rest) = (.ok token, tail)) :
    ∃ span stop, Lexes start (before ++ c :: tail) [⟨token, span⟩] stop rest := by
  obtain ⟨mid, hmid⟩ := lexes_blanks start (c :: tail ++ rest) before hbefore
  have htoken : Lexes mid (c :: tail) [⟨token, mid, mid + Text.byteLength (c :: tail)⟩]
      (mid + Text.byteLength (c :: tail)) rest := by
    rw [Lexes, List.cons_append, tokensFrom, if_neg (by simp [hblank]), hscan]
    dsimp only
    rw [List.drop_left]
    cases tokensFrom (mid + Text.byteLength (c :: tail)) rest <;> rfl
  exact ⟨_, _, hmid.append htoken⟩

theorem lexes_word {name : String} (start : Nat) (rest before : List Char)
    (hbefore : before.all Text.isBlank = true) (h : IsIdentifier name)
    (hrest : separates rest = true) :
    ∃ span stop, Lexes start (before ++ name.toList) [⟨word name, span⟩] stop rest := by
  obtain ⟨c, tail, hname, hstart, htail⟩ := h
  have htake : (tail ++ rest).takeWhile continuesName = tail := by
    refine Decimal.takeWhile_append_of_all htail ?_
    cases rest with
    | nil => rfl
    | cons c rest => exact (Bool.and_eq_true_iff.1 hrest).1
  rw [hname]
  refine lexes_scan start hbefore (not_isBlank_of_startsName hstart) ?_
  rw [scan_of_startsName hstart, htake, ← hname, String.ofList_toList]

theorem lexes_identifier {name : String} (start : Nat) (rest before : List Char)
    (hbefore : before.all Text.isBlank = true) (h : IsPlainName name)
    (hrest : separates rest = true) : ∃ span stop,
      Lexes start (before ++ name.toList) [⟨.identifier name, span⟩] stop rest := by
  have hword : word name = .identifier name := by rw [word, if_neg h.2.1, if_neg h.2.2]
  exact hword ▸ lexes_word start rest before hbefore h.1 hrest

theorem isIdentifier_keyword (k : Keyword) : IsIdentifier k.text := by
  cases k with
  | define => exact ⟨'d', "ef".toList, rfl, rfl, List.all_eq_true.1 rfl⟩
  | giveBack => exact ⟨'r', "eturn".toList, rfl, rfl, List.all_eq_true.1 rfl⟩

theorem lexes_keyword (start : Nat) (rest before : List Char)
    (hbefore : before.all Text.isBlank = true) (k : Keyword)
    (hrest : separates rest = true) : ∃ span stop,
      Lexes start (before ++ k.text.toList) [⟨.keyword k, span⟩] stop rest := by
  have hword : word k.text = .keyword k := by cases k <;> rfl
  exact hword ▸ lexes_word start rest before hbefore (isIdentifier_keyword k) hrest

theorem numberTail_whole {digits : List Char} (h : ∀ x ∈ digits, x.isDigit = true)
    (hrest : separates rest = true) : numberTail (digits ++ rest) = digits := by
  have htake : (digits ++ rest).takeWhile Char.isDigit = digits :=
    Decimal.takeWhile_append_of_all h (isDigit_of_separates hrest)
  rw [numberTail_of_not_point, htake]
  rw [htake, List.drop_left]
  rintro behind rfl
  cases hrest

theorem numberTail_pointed {digits fraction : List Char} (h : ∀ x ∈ digits, x.isDigit = true)
    (h' : ∀ x ∈ fraction, x.isDigit = true) (hrest : separates rest = true) :
    numberTail (digits ++ '.' :: fraction ++ rest) = digits ++ '.' :: fraction := by
  have htake : (digits ++ '.' :: (fraction ++ rest)).takeWhile Char.isDigit = digits :=
    Decimal.takeWhile_append_of_all h rfl
  have htake' : (fraction ++ rest).takeWhile Char.isDigit = fraction :=
    Decimal.takeWhile_append_of_all h' (isDigit_of_separates hrest)
  have hpoint : (digits ++ '.' :: (fraction ++ rest)).drop
      ((digits ++ '.' :: (fraction ++ rest)).takeWhile Char.isDigit).length =
        '.' :: (fraction ++ rest) := by
    rw [htake, List.drop_left]
  rw [List.append_assoc, List.cons_append, numberTail_of_point hpoint, htake, htake']

theorem numberTail_numeral {tail : List Char} (h : Numeral (c :: tail))
    (hrest : separates rest = true) : numberTail (tail ++ rest) = tail := by
  generalize htext : c :: tail = text at h
  cases h with
  | whole hne h =>
      subst htext
      exact numberTail_whole (fun x hx => h x (List.mem_cons_of_mem _ hx)) hrest
  | @pointed digits fraction hne h hne' h' =>
      cases digits with
      | nil => exact absurd rfl hne
      | cons d digits =>
          obtain ⟨rfl, rfl⟩ := List.cons.inj htext
          exact numberTail_pointed (fun x hx => h x (List.mem_cons_of_mem _ hx)) h' hrest

theorem lexes_number {a : Number} (start : Nat) (ha : IsUnsigned a)
    (hrest : separates rest = true) :
    ∃ span stop, Lexes start a.chars [⟨.number a, span⟩] stop rest := by
  obtain ⟨h, hneg⟩ := ha
  have hread := a.read_chars h
  have hnum := a.numeral_magnitudeText
  have hchars : a.chars = a.magnitudeText := by
    rw [a.chars_of_isFinite h, hneg]
    rfl
  obtain ⟨c, tail, hc, hdigit⟩ := hnum.cons
  rw [hchars, hc] at hread ⊢
  rw [hc] at hnum
  change ∃ span stop, Lexes start ([] ++ c :: tail) [⟨.number a, span⟩] stop rest
  refine lexes_scan start rfl (not_isBlank_of_isDigit hdigit) ?_
  rw [scan_of_isDigit (not_startsName_of_isDigit hdigit) hdigit, numberTail_numeral hnum hrest,
    literal, hread, if_pos h]

/-- A symbol with blanks on both sides. -/
theorem lexes_symbol (start : Nat) (rest before : List Char) (s : Symbol) (after : List Char)
    (hbefore : before.all Text.isBlank = true) (hafter : after.all Text.isBlank = true) :
    ∃ span stop, Lexes start (before ++ s.char :: after) [⟨.symbol s, span⟩] stop rest := by
  have hother : Text.isBlank s.char = false ∧ startsName s.char = false ∧
      s.char.isDigit = false := by
    cases s with
    | operator op => cases op <;> decide
    | _ => decide
  have hscan : scan s.char ([] ++ (after ++ rest)) = (.ok (.symbol s), []) := by
    rw [scan_of_other (by simp [hother.2.1]) (by simp [hother.2.2]), Symbol.ofChar?_char]
  obtain ⟨span, mid, hsymbol⟩ := lexes_scan start hbefore hother.1 hscan
  obtain ⟨stop, hblanks⟩ := lexes_blanks mid rest after hafter
  have happend := hsymbol.append hblanks
  rw [List.append_assoc] at happend
  exact ⟨span, stop, happend⟩

end Lexer

end StackCalc.Source
