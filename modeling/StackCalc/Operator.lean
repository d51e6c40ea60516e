import StackCalc.Number.Basic

/-!
# Operators and interrupts

The operations that the language, the assembly and the machine agree on.
-/

namespace StackCalc

inductive BinaryOp where
  | add
  | sub
  | mul
  | div
deriving DecidableEq

namespace BinaryOp

def all : List BinaryOp := [add, sub, mul, div]

def apply : BinaryOp → Number → Number → Number
  | add, a, b => a + b
  | sub, a, b => a - b
  | mul, a, b => a * b
  | div, a, b => a / b

def symbol : BinaryOp → Char
  | add => '+'
  | sub => '-'
  | mul => '*'
  | div => '/'

def mnemonic : BinaryOp → String
  | add => "add"
  | sub => "sub"
  | mul => "mul"
  | div => "div"

end BinaryOp

/-- What the machine offers beyond its own instructions. -/
inductive Interrupt where
  | print
deriving DecidableEq

namespace Interrupt

def id : Interrupt → UInt8
  | print => 0

def ofId? (id : UInt8) : Option Interrupt := if id = 0 then some print else none

end Interrupt

/-- The function that prints, unless a program defines another of this name. -/
def printName : String := "print"

end StackCalc
