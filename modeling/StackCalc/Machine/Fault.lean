import StackCalc.Code.Instruction

/-!
# Faults

What can stop the machine, and where. A variable is known by the hash of its name alone, so the
message takes the names to show from a table, and shows the hash where the table has none.
-/

namespace StackCalc

/-- Names behind hashes. -/
abbrev Names := List (UInt64 × String)

namespace Names

/-- Of two names with one hash the later is kept. -/
def ofList (hash : String → UInt64) (names : List String) : Names :=
  (names.map fun name => (hash name, name)).reverse

def describe (names : Names) (hash : UInt64) : String :=
  (names.lookup hash).getD (Text.hashName hash)

end Names

inductive FaultCause where
  | decode (e : DecodeError)
  | emptyOperandStack
  | emptyReturnStack
  | unbound (hash : UInt64)
  | unknownInterrupt (id : UInt8)
  | addressOutOfBounds (address : UInt32)
deriving DecidableEq

def FaultCause.message (names : Names) : FaultCause → String
  | decode e => e.message
  | emptyOperandStack => "operand stack is empty"
  | emptyReturnStack => "return stack is empty"
  | unbound hash => s!"variable '{names.describe hash}' not found"
  | unknownInterrupt id => s!"unknown interrupt {id.toNat}"
  | addressOutOfBounds address =>
    s!"address {Text.address address.toNat} is past the end of the program"

/-- A fault with the offset of the instruction that raised it. -/
structure Fault where
  offset : Nat
  cause : FaultCause
deriving DecidableEq

end StackCalc
