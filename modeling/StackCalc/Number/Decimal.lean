import StackCalc.Number.Basic

/-!
# Decimals

A decimal is a whole number times a power of ten. It stands for the number nearest to it, a tie
going to the even significand; what is too large for any finite number stands for infinity. The
arithmetic is exact throughout.
-/

namespace StackCalc

/-- The whole number nearest to `n / d`, the even one of two. -/
def roundEven (n d : Nat) : Nat :=
  let q := n / d
  let r := n % d
  if 2 * r < d then q else if d < 2 * r then q + 1 else q + q % 2

namespace Number

/-- The nonnegative number nearest to `n / d` units. Rounding a significand up to the next power
of two carries into the exponent, which is the number wanted. -/
def ofQuotient (n d : Nat) : Number :=
  let scale := Nat.log2 (n / d) - 52
  ⟨UInt64.ofNat (min ((scale <<< 52) + roundEven n (d <<< scale)) infinity.bits.toNat)⟩

end Number

structure Decimal where
  coefficient : Nat
  exponent : Int
deriving DecidableEq

namespace Decimal

def tenTo (n : Nat) : Nat := Nat.pow 10 n

/-- The nearest number. Outside the exponents that `ofQuotient` is used for, the answer is plain
and the power of ten is not computed. -/
def nearest (x : Decimal) : Number :=
  if x.coefficient = 0 then .zero
  else if 400 < x.exponent then .infinity
  else if x.exponent < -(400 + x.coefficient.log2 + 1 : Nat) then .zero
  else
    .ofQuotient (x.coefficient * tenTo x.exponent.toNat * Number.unitsPerWhole)
      (tenTo (-x.exponent).toNat)

def readNatural (digits : List Char) : Nat := Nat.ofDigitChars 10 digits 0

def readInteger : List Char → Int
  | '-' :: digits => -(readNatural digits : Int)
  | '+' :: digits => readNatural digits
  | digits => readNatural digits

/-- Reads digits, then a point and more digits, then `e` and a signed exponent; the parts after
the first may be absent. -/
def read (text : List Char) : Decimal :=
  let whole := text.takeWhile Char.isDigit
  let rest := text.dropWhile Char.isDigit
  let (fraction, rest) :=
    match rest with
    | '.' :: rest => (rest.takeWhile Char.isDigit, rest.dropWhile Char.isDigit)
    | rest => ([], rest)
  let exponent :=
    match rest with
    | 'e' :: rest => readInteger rest
    | 'E' :: rest => readInteger rest
    | _ => 0
  ⟨readNatural (whole ++ fraction), exponent - fraction.length⟩

end Decimal

/-- The number a literal stands for, a minus sign in front allowed. -/
def Number.read : List Char → Number
  | '-' :: text => -(Decimal.read text).nearest
  | text => (Decimal.read text).nearest

end StackCalc
