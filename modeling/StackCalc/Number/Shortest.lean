import StackCalc.Number.Decimal

/-!
# Shortest text of a number

A finite number is written with the fewest digits that read back to it: on the coarsest decimal
grid where one of its two neighbours reads back, the nearer neighbour, the upper one on a tie. The
text is positional whatever the size, has no exponent and no trailing point.
-/

namespace StackCalc

namespace Decimal

/-- Digits with zeros up to the units, or with a point. -/
def text (x : Decimal) : List Char :=
  let digits := Nat.toDigits 10 x.coefficient
  let places := (-x.exponent).toNat
  if places = 0 then digits ++ List.replicate x.exponent.toNat '0'
  else
    let padded := digits.leftpad (places + 1) '0'
    padded.take (padded.length - places) ++ '.' :: padded.drop (padded.length - places)

end Decimal

namespace Number

/-- The neighbour of the magnitude on the grid of the multiples of `10 ^ exponent` that reads
back, if one does. -/
def neighbour? (a : Number) (exponent : Int) : Option Decimal :=
  let n := a.units * Decimal.tenTo (-exponent).toNat
  let d := unitsPerWhole * Decimal.tenTo exponent.toNat
  let below : Decimal := ⟨n / d, exponent⟩
  let above : Decimal := ⟨n / d + 1, exponent⟩
  if below.nearest = a.abs ∧ (2 * (n % d) < d ∨ above.nearest ≠ a.abs) then some below
  else if above.nearest = a.abs then some above
  else none

/-- An exponent whose power of ten is above the magnitude, by no more than a few places. -/
def coarsestExponent (a : Number) : Int :=
  ((a.units.log2 : Int) - 1073) * 30103 / 100000 + 1

/-- The magnitude with all its digits. -/
def exact (a : Number) : Decimal := ⟨a.units * Nat.pow 5 1074, -1074⟩

/-- Seventeen digits always read back, so the search ends on one of the grids it visits. -/
def shortest (a : Number) : Decimal :=
  ((List.range 20).findSome? fun (i : Nat) => a.neighbour? (a.coarsestExponent - i)).getD a.exact

def magnitudeText (a : Number) : List Char :=
  if a.units = 0 then ['0'] else a.shortest.text

def chars (a : Number) : List Char :=
  if a.isNaN then ['N', 'a', 'N']
  else
    (if a.isNegative then ['-'] else []) ++
      if a.isFinite then a.magnitudeText else ['i', 'n', 'f']

def text (a : Number) : String := String.ofList a.chars

instance : ToString Number := ⟨text⟩

end Number

end StackCalc
