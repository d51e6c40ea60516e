import Mathlib.Algebra.Order.Field.Rat
import Mathlib.Data.Rat.Cast.Order
import Mathlib.Tactic.Linarith
import StackCalc.Number.Basic

/-!
# The value of a number

A finite number stands for a rational. Those that stand for a whole number from 0 to 255 are the
numbers of interrupts, and the byte of such a number is its value.
-/

namespace StackCalc

namespace Number

/-- The value of a finite number. -/
def toRat (a : Number) : ℚ := (if a.isNegative then -1 else 1) * (a.units / unitsPerWhole)

/-- A whole number from 0 to 255. The zero with a sign is one as well. -/
def IsByte (a : Number) : Prop := a.isFinite = true ∧ ∃ n : Nat, n ≤ 255 ∧ a.toRat = n

theorem unitsPerWhole_pos : 0 < unitsPerWhole := by decide

theorem toRat_eq_natCast_iff {a : Number} {n : Nat} :
    a.toRat = n ↔ (a.isNegative = false ∨ a.units = 0) ∧ a.units = n * unitsPerWhole := by
  have hpos : (0 : ℚ) < unitsPerWhole := Nat.cast_pos.2 unitsPerWhole_pos
  have hvalue : (a.units / unitsPerWhole : ℚ) = n ↔ a.units = n * unitsPerWhole := by
    rw [div_eq_iff hpos.ne']
    norm_cast
  unfold toRat
  cases hsign : a.isNegative with
  | false => simpa using hvalue
  | true =>
      have hquotient : (0 : ℚ) ≤ a.units / unitsPerWhole := div_nonneg (Nat.cast_nonneg _) hpos.le
      have hn : (0 : ℚ) ≤ n := Nat.cast_nonneg n
      constructor
      · intro h
        have hzero : (a.units / unitsPerWhole : ℚ) = 0 := by
          simp only [if_true] at h
          linarith
        have hunits : a.units = 0 := by simpa [hpos.ne'] using hzero
        rw [hzero] at h
        have hwhole : n = 0 := by simpa using h.symm
        simp [hunits, hwhole]
      · rintro ⟨hunits, h⟩
        have hunits : a.units = 0 := by simpa using hunits
        rw [hunits, eq_comm, Nat.mul_eq_zero] at h
        have hwhole : n = 0 := h.resolve_right unitsPerWhole_pos.ne'
        simp [hunits, hwhole]

/-- The byte of a number is its value, and only whole numbers from 0 to 255 have one. -/
theorem toByte?_eq_some_iff {a : Number} {id : UInt8} :
    a.toByte? = some id ↔ a.isFinite = true ∧ a.toRat = id.toNat := by
  rw [toRat_eq_natCast_iff]
  unfold toByte?
  dsimp only
  generalize hW : unitsPerWhole = W
  have hpos : 0 < W := hW ▸ unitsPerWhole_pos
  have hid := id.toNat_lt
  constructor
  · intro h
    split at h
    · next hbyte =>
        obtain ⟨hfinite, hsign, hwhole, hle⟩ := hbyte
        cases h
        refine ⟨hfinite, hsign, ?_⟩
        rw [UInt8.toNat_ofNat', Nat.mod_eq_of_lt (by omega), Nat.div_mul_cancel]
        exact Nat.dvd_of_mod_eq_zero hwhole
    · cases h
  · rintro ⟨hfinite, hsign, hunits⟩
    have hdiv : a.units / W = id.toNat := by rw [hunits, Nat.mul_div_cancel _ hpos]
    have hmod : a.units % W = 0 := by rw [hunits, Nat.mul_mod_left]
    have hle : id.toNat ≤ 255 := by omega
    simp [hfinite, hsign, hmod, hdiv, hle]

theorem toByte?_eq_none_iff {a : Number} : a.toByte? = none ↔ ¬ a.IsByte := by
  constructor
  · rintro h ⟨hfinite, n, hle, hvalue⟩
    have hbyte : (UInt8.ofNat n).toNat = n := by
      rw [UInt8.toNat_ofNat', Nat.mod_eq_of_lt (by omega)]
    rw [← hbyte] at hvalue
    rw [toByte?_eq_some_iff.2 ⟨hfinite, hvalue⟩] at h
    cases h
  · intro h
    by_contra hsome
    obtain ⟨id, hid⟩ := Option.ne_none_iff_exists'.1 hsome
    obtain ⟨hfinite, hvalue⟩ := toByte?_eq_some_iff.1 hid
    have hlt := id.toNat_lt
    exact h ⟨hfinite, id.toNat, by omega, hvalue⟩

end Number

end StackCalc
