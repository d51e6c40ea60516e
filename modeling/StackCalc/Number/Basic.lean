/-!
# Numbers

A number is a double-precision value, kept as its sixty-four bits, so that equality and encoding
tell every two values apart. The magnitude of a finite number is a whole count of units, one unit
being `2 ^ -1074`, the smallest positive number.
-/

namespace StackCalc

structure Number where
  bits : UInt64
deriving DecidableEq, Inhabited

namespace Number

def ofFloat (x : Float) : Number := ⟨x.toBits⟩

def toFloat (a : Number) : Float := Float.ofBits a.bits

instance : Add Number := ⟨fun a b => ofFloat (a.toFloat + b.toFloat)⟩

instance : Sub Number := ⟨fun a b => ofFloat (a.toFloat - b.toFloat)⟩

instance : Mul Number := ⟨fun a b => ofFloat (a.toFloat * b.toFloat)⟩

instance : Div Number := ⟨fun a b => ofFloat (a.toFloat / b.toFloat)⟩

/-- Changing the sign changes the top bit alone, so zero and infinity have two signs as well. -/
instance : Neg Number := ⟨fun a => ⟨a.bits ^^^ 0x8000000000000000⟩⟩

def zero : Number := ⟨0⟩

def infinity : Number := ⟨0x7ff0000000000000⟩

def isNegative (a : Number) : Bool := decide (1 <<< 63 ≤ a.bits.toNat)

/-- The number without its sign. -/
def abs (a : Number) : Number := ⟨a.bits &&& 0x7fffffffffffffff⟩

def exponentField (a : Number) : Nat := (a.bits.toNat >>> 52) % 2048

def fraction (a : Number) : Nat := a.bits.toNat % (1 <<< 52)

def isFinite (a : Number) : Bool := decide (a.exponentField < 2047)

def isNaN (a : Number) : Bool := !a.isFinite && a.fraction != 0

/-- The leading digit is implicit, except in the numbers with the lowest exponent. -/
def significand (a : Number) : Nat :=
  if a.exponentField = 0 then a.fraction else a.fraction + (1 <<< 52)

def unitsPerWhole : Nat := 1 <<< 1074

/-- The magnitude of a finite number, counted in units. -/
def units (a : Number) : Nat := a.significand <<< (a.exponentField - 1)

/-- The byte of the same value, for a whole number from 0 to 255. -/
def toByte? (a : Number) : Option UInt8 :=
  let whole := a.units / unitsPerWhole
  if a.isFinite ∧ (a.isNegative = false ∨ a.units = 0) ∧ a.units % unitsPerWhole = 0 ∧ whole ≤ 255
  then some (UInt8.ofNat whole)
  else none

end Number

end StackCalc
