import Mathlib.Data.Nat.Bitwise
import StackCalc.Number.Shortest

/-!
# Numbers read back from their text

The text of a finite number is digits, maybe with a point and more digits, maybe behind a minus
sign; and it reads back to the number, to the last bit. The shortest decimal is only ever given
after it was tried, so what is left to show is that its text stands for the same decimal and that
the decimal with all the digits needs no rounding.
-/

namespace StackCalc

/-- Digits, then maybe a point and more digits. -/
inductive Numeral : List Char → Prop
  | whole {digits : List Char} (hne : digits ≠ []) (h : ∀ c ∈ digits, c.isDigit = true) :
      Numeral digits
  | pointed {digits fraction : List Char} (hne : digits ≠ [])
      (h : ∀ c ∈ digits, c.isDigit = true) (hne' : fraction ≠ [])
      (h' : ∀ c ∈ fraction, c.isDigit = true) : Numeral (digits ++ '.' :: fraction)

theorem Numeral.cons {text : List Char} (h : Numeral text) :
    ∃ c rest, text = c :: rest ∧ c.isDigit = true := by
  cases h with
  | whole hne h =>
      cases text with
      | nil => exact absurd rfl hne
      | cons c rest => exact ⟨c, rest, rfl, h c (by simp)⟩
  | @pointed digits fraction hne h _ _ =>
      cases digits with
      | nil => exact absurd rfl hne
      | cons c digits => exact ⟨c, digits ++ '.' :: fraction, rfl, h c (by simp)⟩

namespace Decimal

theorem takeWhile_append_of_all {p : Char → Bool} {s t : List Char} (h : ∀ c ∈ s, p c = true)
    (ht : t.head?.all (!p ·) = true) : (s ++ t).takeWhile p = s := by
  rw [List.takeWhile_append_of_pos h]
  cases t with
  | nil => simp
  | cons c t =>
      have : p c = false := by simpa using ht
      simp [this]

theorem dropWhile_append_of_all {p : Char → Bool} {s t : List Char} (h : ∀ c ∈ s, p c = true)
    (ht : t.head?.all (!p ·) = true) : (s ++ t).dropWhile p = t := by
  rw [List.dropWhile_append_of_pos h]
  cases t with
  | nil => simp
  | cons c t =>
      have : p c = false := by simpa using ht
      simp [this]

theorem read_whole {digits : List Char} (h : ∀ c ∈ digits, c.isDigit = true) :
    read digits = ⟨readNatural digits, 0⟩ := by
  have htake := takeWhile_append_of_all (t := []) h rfl
  have hdrop := dropWhile_append_of_all (t := []) h rfl
  rw [List.append_nil] at htake hdrop
  simp [read, htake, hdrop]

theorem read_pointed {digits fraction : List Char} (h : ∀ c ∈ digits, c.isDigit = true)
    (h' : ∀ c ∈ fraction, c.isDigit = true) :
    read (digits ++ '.' :: fraction) =
      ⟨readNatural (digits ++ fraction), -(fraction.length : Int)⟩ := by
  have htake := takeWhile_append_of_all (t := '.' :: fraction) h (by simp)
  have hdrop := dropWhile_append_of_all (t := '.' :: fraction) h (by simp)
  have htake' := takeWhile_append_of_all (t := []) h' rfl
  have hdrop' := dropWhile_append_of_all (t := []) h' rfl
  rw [List.append_nil] at htake' hdrop'
  simp [read, htake, hdrop, htake', hdrop']

theorem isDigit_of_mem_toDigits {n : Nat} {c : Char} (h : c ∈ Nat.toDigits 10 n) :
    c.isDigit = true := Nat.isDigit_of_mem_toDigits (by omega) (by omega) h

theorem readNatural_append_zeros (digits : List Char) (n : Nat) :
    readNatural (digits ++ List.replicate n '0') = readNatural digits * tenTo n := by
  rw [readNatural, Nat.ofDigitChars_append, Nat.ofDigitChars_replicate_zero, Nat.mul_comm]
  rfl

theorem readNatural_leftpad (n : Nat) (digits : List Char) :
    readNatural (digits.leftpad n '0') = readNatural digits := by
  rw [readNatural, List.leftpad, Nat.ofDigitChars_append, Nat.ofDigitChars_replicate_zero,
    Nat.mul_zero, readNatural]

theorem readNatural_toDigits (n : Nat) : readNatural (Nat.toDigits 10 n) = n :=
  Nat.ofDigitChars_ten_toDigits

theorem text_of_nonneg {x : Decimal} (h : 0 ≤ x.exponent) :
    x.text = Nat.toDigits 10 x.coefficient ++ List.replicate x.exponent.toNat '0' := by
  have hz : (-x.exponent).toNat = 0 := by omega
  rw [text, if_pos hz]

/-- Digits of a decimal with places behind the point, and where the point is put. -/
theorem text_of_neg {x : Decimal} (h : x.exponent < 0) :
    ∃ digits fraction, x.text = digits ++ '.' :: fraction ∧ digits ≠ [] ∧
      fraction.length = (-x.exponent).toNat ∧
      digits ++ fraction =
        (Nat.toDigits 10 x.coefficient).leftpad ((-x.exponent).toNat + 1) '0' := by
  have hz : ¬ (-x.exponent).toNat = 0 := by omega
  let padded := (Nat.toDigits 10 x.coefficient).leftpad ((-x.exponent).toNat + 1) '0'
  have hlen : (-x.exponent).toNat + 1 ≤ padded.length := by
    rw [List.length_leftpad]
    exact Nat.le_max_left _ _
  refine ⟨padded.take (padded.length - (-x.exponent).toNat),
    padded.drop (padded.length - (-x.exponent).toNat), ?_, ?_, ?_, List.take_append_drop _ _⟩
  · rw [text, if_neg hz]
  · intro he
    have := congrArg List.length he
    rw [List.length_take, List.length_nil] at this
    omega
  · rw [List.length_drop]
    omega

theorem isDigit_of_mem_leftpad {n c : Nat} {x : Char}
    (h : x ∈ (Nat.toDigits 10 c).leftpad n '0') : x.isDigit = true := by
  rcases List.mem_append.1 h with h | h
  · rw [List.eq_of_mem_replicate h]
    rfl
  · exact isDigit_of_mem_toDigits h

theorem numeral_text (x : Decimal) : Numeral x.text := by
  rcases Int.lt_or_le x.exponent 0 with h | h
  · obtain ⟨digits, fraction, htext, hne, hlen, hpad⟩ := text_of_neg h
    have hdigit : ∀ c ∈ digits ++ fraction, c.isDigit = true := by
      rw [hpad]
      exact fun c hc => isDigit_of_mem_leftpad hc
    rw [htext]
    have hfraction : ∀ c ∈ fraction, c.isDigit = true := fun c hc => hdigit c (by simp [hc])
    refine .pointed hne (fun c hc => hdigit c (by simp [hc])) ?_ hfraction
    rintro rfl
    simp at hlen
    omega
  · rw [text_of_nonneg h]
    refine .whole (by simp [Nat.toDigits_ne_nil]) fun c hc => ?_
    rcases List.mem_append.1 hc with hc | hc
    · exact isDigit_of_mem_toDigits hc
    · rw [List.eq_of_mem_replicate hc]
      rfl

theorem read_text_of_neg {x : Decimal} (h : x.exponent < 0) : read x.text = x := by
  obtain ⟨digits, fraction, htext, hne, hlen, hpad⟩ := text_of_neg h
  have hdigit : ∀ c ∈ digits ++ fraction, c.isDigit = true := by
    rw [hpad]
    exact fun c hc => isDigit_of_mem_leftpad hc
  have hfraction : ∀ c ∈ fraction, c.isDigit = true := fun c hc => hdigit c (by simp [hc])
  rw [htext, read_pointed (fun c hc => hdigit c (by simp [hc])) hfraction, hpad,
    readNatural_leftpad, readNatural_toDigits, hlen]
  have : -((-x.exponent).toNat : Int) = x.exponent := by omega
  rw [this]

theorem read_text_of_nonneg {x : Decimal} (h : 0 ≤ x.exponent) :
    read x.text = ⟨x.coefficient * tenTo x.exponent.toNat, 0⟩ := by
  rw [read_whole, text_of_nonneg h, readNatural_append_zeros, readNatural_toDigits]
  rw [text_of_nonneg h]
  intro c hc
  rcases List.mem_append.1 hc with hc | hc
  · exact isDigit_of_mem_toDigits hc
  · rw [List.eq_of_mem_replicate hc]
    rfl

/-- Zeros written out up to the units do not change the number a decimal stands for. -/
theorem nearest_read_text {x : Decimal} (h : x.coefficient = 0 ∨ x.exponent ≤ 400) :
    (read x.text).nearest = x.nearest := by
  rcases Int.lt_or_le x.exponent 0 with hneg | hneg
  · rw [read_text_of_neg hneg]
  · rw [read_text_of_nonneg hneg]
    by_cases hc : x.coefficient = 0
    · simp [nearest, hc]
    · have he : x.exponent ≤ 400 := h.resolve_left hc
      have hten : tenTo x.exponent.toNat ≠ 0 := (Nat.pow_pos (by omega)).ne'
      have h1 : ¬ x.exponent < -(400 + x.coefficient.log2 + 1 : Nat) := by omega
      have h2 : ¬ (0 : Int) < -(400 + (x.coefficient * tenTo x.exponent.toNat).log2 + 1 : Nat) := by
        omega
      have h3 : ¬ 400 < x.exponent := by omega
      have h4 : (-x.exponent).toNat = 0 := by omega
      have h5 : x.coefficient * tenTo x.exponent.toNat * tenTo (0 : Int).toNat =
          x.coefficient * tenTo x.exponent.toNat := Nat.mul_one _
      simp only [nearest, if_neg hc, if_neg (Nat.mul_ne_zero hc hten), if_neg h1, if_neg h2,
        if_neg h3, h4, h5]
      rfl

end Decimal

namespace Number

variable (a : Number)

theorem abs_toNat : a.abs.bits.toNat = a.bits.toNat % 2 ^ 63 := by
  have h : (0x7fffffffffffffff : UInt64).toNat = 2 ^ 63 - 1 := rfl
  rw [abs, UInt64.toNat_and, h, Nat.and_two_pow_sub_one_eq_mod]

theorem abs_toNat_eq : a.abs.bits.toNat = a.exponentField * 2 ^ 52 + a.fraction := by
  rw [abs_toNat, exponentField, fraction, Nat.shiftRight_eq_div_pow, Nat.one_shiftLeft]
  omega

theorem fraction_lt : a.fraction < 2 ^ 52 := by
  rw [fraction, Nat.one_shiftLeft]
  omega

theorem isFinite_iff : a.isFinite = true ↔ a.exponentField < 2047 := by simp [isFinite]

theorem units_eq :
    a.units = (if a.exponentField = 0 then a.fraction else a.fraction + 2 ^ 52) *
      2 ^ (a.exponentField - 1) := by
  rw [units, significand, Nat.shiftLeft_eq, Nat.one_shiftLeft]

theorem roundEven_mul (n : Nat) {d : Nat} (hd : 0 < d) : roundEven (n * d) d = n := by
  simp [roundEven, Nat.mul_div_cancel n hd, hd]

theorem log2_mul_two_pow {n : Nat} (h : 2 ^ 52 ≤ n) (h' : n < 2 ^ 53) (k : Nat) :
    Nat.log2 (n * 2 ^ k) = 52 + k := by
  have hpos := Nat.two_pow_pos k
  rw [Nat.log2_eq_iff (Nat.mul_pos (by omega) hpos).ne', Nat.add_right_comm, Nat.pow_add,
    Nat.pow_add]
  exact ⟨Nat.mul_le_mul_right _ h, (Nat.mul_lt_mul_right hpos).2 h'⟩

theorem ofQuotient_units (h : a.isFinite = true) {d : Nat} (hd : 0 < d) :
    ofQuotient (a.units * d) d = a.abs := by
  rw [isFinite_iff] at h
  have hf := a.fraction_lt
  have hbits : a.abs.bits = UInt64.ofNat (a.exponentField * 2 ^ 52 + a.fraction) := by
    rw [← a.abs_toNat_eq, UInt64.ofNat_toNat]
  have hinf : infinity.bits.toNat = 2047 * 2 ^ 52 := rfl
  -- the scale that is computed is the one that the significand was shifted by
  have hscale : Nat.log2 a.units - 52 = a.exponentField - 1 := by
    rw [units_eq]
    by_cases he : a.exponentField = 0
    · rw [if_pos he, he, Nat.zero_sub, Nat.pow_zero, Nat.mul_one]
      have : Nat.log2 a.fraction < 53 := by
        by_cases h0 : a.fraction = 0
        · simp [h0]
        · exact (Nat.log2_lt h0).2 (by omega)
      omega
    · rw [if_neg he, log2_mul_two_pow (by omega) (by omega)]
      omega
  have hsig : roundEven (a.units * d) (d <<< (a.exponentField - 1)) =
      if a.exponentField = 0 then a.fraction else a.fraction + 2 ^ 52 := by
    rw [units_eq, Nat.shiftLeft_eq, Nat.mul_assoc, Nat.mul_comm _ d]
    exact roundEven_mul _ (Nat.mul_pos hd (Nat.two_pow_pos _))
  rw [ofQuotient]
  simp only [Nat.mul_div_cancel _ hd, hscale, hsig, hinf]
  rw [Nat.shiftLeft_eq]
  cases ha : a.abs with
  | mk bits =>
      rw [ha] at hbits
      subst hbits
      congr 2
      split <;> omega


theorem nearest_of_neighbour? {exponent : Int} {x : Decimal}
    (h : a.neighbour? exponent = some x) : x.nearest = a.abs := by
  simp only [neighbour?] at h
  split at h
  · next hb => exact Option.some.inj h ▸ hb.1
  · split at h
    · next ha => exact Option.some.inj h ▸ ha
    · cases h

theorem tenTo_pos (n : Nat) : 0 < Decimal.tenTo n := Nat.pow_pos (by omega)

theorem five_pow_pos (n : Nat) : 0 < Nat.pow 5 n := Nat.pow_pos (by omega)

theorem mul_five_pow_ne_zero {u : Nat} (hu : u ≠ 0) (n : Nat) : u * Nat.pow 5 n ≠ 0 :=
  Nat.mul_ne_zero hu (five_pow_pos n).ne'

theorem le_log2_mul_five_pow {u : Nat} (hu : u ≠ 0) (n : Nat) : n ≤ (u * Nat.pow 5 n).log2 := by
  have hpow : 2 ^ n ≤ Nat.pow 5 n := Nat.pow_le_pow_left (by omega) n
  rw [Nat.le_log2 (mul_five_pow_ne_zero hu n)]
  exact hpow.trans (Nat.le_mul_of_pos_left _ (Nat.pos_of_ne_zero hu))

theorem mul_tenTo (u : Nat) {n w : Nat} (hw : w = 1 <<< n) :
    u * Nat.pow 5 n * Decimal.tenTo 0 * w = u * Decimal.tenTo n := by
  have hten : Decimal.tenTo n = Nat.pow 5 n * 2 ^ n := Nat.mul_pow 5 2 n
  have hzero : Decimal.tenTo 0 = 1 := rfl
  rw [hw, hten, hzero, Nat.mul_one, Nat.one_shiftLeft, Nat.mul_assoc]

theorem nearest_of_places {c n : Nat} (hc : c ≠ 0) (h : n ≤ c.log2) :
    (⟨c, -(n : Int)⟩ : Decimal).nearest =
      ofQuotient (c * Decimal.tenTo 0 * unitsPerWhole) (Decimal.tenTo n) := by
  have h1 : ¬ -(n : Int) < -(400 + c.log2 + 1 : Nat) := by omega
  have h2 : ¬ (400 : Int) < -(n : Int) := by omega
  have h3 : (-(n : Int)).toNat = 0 := by omega
  have h4 : (-(-(n : Int))).toNat = n := by omega
  simp only [Decimal.nearest, if_neg hc, if_neg h1, if_neg h2, h3, h4]

theorem nearest_of_coefficient (x : Decimal) {u n : Nat} (hu : u ≠ 0)
    (hc : x.coefficient = u * Nat.pow 5 n) (hx : x.exponent = -(n : Int))
    (hn : unitsPerWhole = 1 <<< n) :
    x.nearest = ofQuotient (u * Decimal.tenTo n) (Decimal.tenTo n) := by
  obtain ⟨c, e⟩ := x
  obtain rfl : c = u * Nat.pow 5 n := hc
  obtain rfl : e = -(n : Int) := hx
  rw [nearest_of_places (mul_five_pow_ne_zero hu n) (le_log2_mul_five_pow hu n), mul_tenTo u hn]

theorem nearest_exact (h : a.isFinite = true) (hu : a.units ≠ 0) : a.exact.nearest = a.abs := by
  have hunits : unitsPerWhole = 1 <<< 1074 := by delta unitsPerWhole; rfl
  have hcoefficient : a.exact.coefficient = a.units * Nat.pow 5 1074 := by delta exact; rfl
  rw [nearest_of_coefficient a.exact hu hcoefficient rfl hunits]
  exact a.ofQuotient_units h (tenTo_pos 1074)

theorem nearest_shortest (h : a.isFinite = true) (hu : a.units ≠ 0) :
    a.shortest.nearest = a.abs := by
  rw [shortest]
  cases hs : (List.range 20).findSome? fun (i : Nat) => a.neighbour? (a.coarsestExponent - i) with
  | none => exact a.nearest_exact h hu
  | some x =>
      obtain ⟨i, -, hi⟩ := List.exists_of_findSome?_eq_some hs
      exact a.nearest_of_neighbour? hi

theorem nearest_read_magnitudeText (h : a.isFinite = true) :
    (Decimal.read a.magnitudeText).nearest = a.abs := by
  rw [magnitudeText]
  split
  · next hu =>
      have := a.ofQuotient_units h Nat.one_pos
      rw [hu] at this
      rw [← this]
      rfl
  · next hu =>
      have hs := a.nearest_shortest h hu
      rw [Decimal.nearest_read_text, hs]
      by_contra hbig
      have hc : ¬ a.shortest.coefficient = 0 := fun hc => hbig (.inl hc)
      have he : 400 < a.shortest.exponent := by omega
      rw [Decimal.nearest, if_neg hc, if_pos he] at hs
      have hinf := congrArg (fun b => b.bits.toNat) hs
      rw [isFinite_iff] at h
      have hf := a.fraction_lt
      have habs := a.abs_toNat_eq
      have : infinity.bits.toNat = 2047 * 2 ^ 52 := rfl
      omega

theorem numeral_magnitudeText : Numeral a.magnitudeText := by
  rw [magnitudeText]
  split
  · exact .whole (by simp) (by simp)
  · exact Decimal.numeral_text _

theorem eq_of_bits {a b : Number} (h : a.bits = b.bits) : a = b := by
  cases a
  cases b
  simp_all

theorem isNegative_iff : a.isNegative = true ↔ 2 ^ 63 ≤ a.bits.toNat := by
  rw [isNegative, decide_eq_true_iff, Nat.one_shiftLeft]

theorem abs_of_not_isNegative (h : a.isNegative = false) : a.abs = a := by
  have hlt : a.bits.toNat < 2 ^ 63 := by
    by_contra hge
    rw [a.isNegative_iff.2 (by omega)] at h
    cases h
  apply eq_of_bits
  rw [← UInt64.toNat_inj, abs_toNat, Nat.mod_eq_of_lt hlt]

theorem neg_abs_of_isNegative (h : a.isNegative = true) : -a.abs = a := by
  rw [isNegative_iff] at h
  have htop : (0x8000000000000000 : UInt64).toNat = 2 ^ 63 := rfl
  have hlt := a.bits.toNat_lt
  apply eq_of_bits
  change a.abs.bits ^^^ 0x8000000000000000 = a.bits
  rw [← UInt64.toNat_inj, UInt64.toNat_xor, abs_toNat, htop]
  apply Nat.eq_of_testBit_eq
  intro i
  rw [Nat.testBit_xor, Nat.testBit_mod_two_pow, Nat.testBit_two_pow]
  rcases Nat.lt_trichotomy i 63 with hi | hi | hi
  · simp [hi, Nat.ne_of_gt hi]
  · subst hi
    simp [Nat.testBit_of_two_pow_le_and_two_pow_add_one_gt h hlt]
  · have hbig : 2 ^ 64 ≤ 2 ^ i := Nat.pow_le_pow_right (by omega) hi
    simp [Nat.testBit_lt_two_pow (hlt.trans_le hbig), Nat.not_lt_of_gt hi, Nat.ne_of_lt hi]

theorem isNaN_of_isFinite (h : a.isFinite = true) : a.isNaN = false := by simp [isNaN, h]

theorem chars_of_isFinite (h : a.isFinite = true) :
    a.chars = (if a.isNegative then ['-'] else []) ++ a.magnitudeText := by
  simp [chars, a.isNaN_of_isFinite h, h]

/-- A finite number is read back from its text. -/
theorem read_chars (h : a.isFinite = true) : read a.chars = a := by
  rw [a.chars_of_isFinite h]
  by_cases hneg : a.isNegative = true
  · rw [if_pos hneg]
    change -(Decimal.read a.magnitudeText).nearest = a
    rw [a.nearest_read_magnitudeText h, a.neg_abs_of_isNegative hneg]
  · rw [if_neg hneg, List.nil_append]
    have hread : read a.magnitudeText = (Decimal.read a.magnitudeText).nearest := by
      obtain ⟨c, rest, hc, hd⟩ := a.numeral_magnitudeText.cons
      rw [hc]
      unfold read
      split
      · next heq =>
          cases heq
          cases hd
      · rfl
    rw [hread, a.nearest_read_magnitudeText h, a.abs_of_not_isNegative (by simpa using hneg)]

end Number

end StackCalc
