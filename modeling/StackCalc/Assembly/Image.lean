import StackCalc.Assembly.Entry
import StackCalc.Code.Listing
import StackCalc.Machine.Fault

/-!
# Images

Assembling a unit lays its commands out one after another, gives each label the offset of the
command that follows it, and then encodes the commands with their targets looked up. Laying out
checks labels, interrupts and names in the order of the text; targets are checked after that. A
call of `print` is the interrupt, unless the unit defines a label of that name.
-/

namespace StackCalc.Assembly

/-- Code with the names it was written with: of offsets, and behind hashes. -/
structure Image where
  bytecode : List UInt8
  labels : Labels
  names : Names
deriving DecidableEq

def Image.empty : Image := ⟨[], [], []⟩

/-- A command laid out, but for its target. -/
abbrev Placed := Operation String UInt64 UInt8

/-- What laying out knows so far. -/
structure Layout where
  cursor : Nat
  labels : Labels
  names : Names

namespace Layout

def empty : Layout := ⟨0, [], []⟩

def address (layout : Layout) (span : Span) : Result UInt32 :=
  if layout.cursor < UInt32.size then .ok (UInt32.ofNat layout.cursor)
  else .error ⟨.addressOverflow, span⟩

def define (layout : Layout) (name : String) (span : Span) : Result Layout := do
  let address ← layout.address span
  match layout.labels.lookup name with
  | some _ => .error ⟨.duplicateLabel name, span⟩
  | none => .ok { layout with labels := layout.labels ++ [(name, address)] }

/-- The hash of a name. No two names of a unit may share one. -/
def hash (hasher : String → UInt64) (layout : Layout) (name : String) (span : Span) :
    Result (UInt64 × Names) :=
  let hash := hasher name
  match layout.names.lookup hash with
  | none => .ok (hash, layout.names ++ [(hash, name)])
  | some seen =>
    if seen = name then .ok (hash, layout.names)
    else .error ⟨.hashCollision seen name, span⟩

/-- Replaces names by hashes and interrupt numbers by bytes. Kinds without an operand take none
from what is written, and for any other kind the operand has to be of the kind's own. -/
def lower (hasher : String → UInt64) (definesPrint : Bool) (layout : Layout) (span : Span) :
    Opcode → Operand → Result (Placed × Names)
  | .call, .name target =>
    if target = printName && !definesPrint then
      .ok (.interrupt Interrupt.print.id, layout.names)
    else .ok (.call target, layout.names)
  | .jump, .name target => .ok (.jump target, layout.names)
  | .set, .name name => do
    let (hash, names) ← layout.hash hasher name span
    return (.set hash, names)
  | .get, .name name => do
    let (hash, names) ← layout.hash hasher name span
    return (.get hash, names)
  | .unset, .name name => do
    let (hash, names) ← layout.hash hasher name span
    return (.unset hash, names)
  | .push, .number value => .ok (.push value, layout.names)
  | .interrupt, .number value =>
    match value.toByte? with
    | some id => .ok (.interrupt id, layout.names)
    | none => .error ⟨.invalidInterrupt, span⟩
  | .ret, _ => .ok (.ret, layout.names)
  | .arith op, _ => .ok (.arith op, layout.names)
  | .pop, _ => .ok (.pop, layout.names)
  | opcode, _ => .error ⟨.missingOperand opcode "an operand", span⟩

/-- Lays entries out, giving the commands in order and what is known at the end. -/
def place (hasher : String → UInt64) (definesPrint : Bool) :
    Layout → List (Located Entry) → Result (List (Located Placed) × Layout)
  | layout, [] => .ok ([], layout)
  | layout, ⟨.label name, span⟩ :: entries => do
    place hasher definesPrint (← layout.define name span) entries
  | layout, ⟨.command opcode operand, span⟩ :: entries => do
    let _ ← layout.address span
    let (placed, names) ← layout.lower hasher definesPrint span opcode operand
    let next := { layout with cursor := layout.cursor + placed.encodedLength, names := names }
    let (rest, last) ← place hasher definesPrint next entries
    return (⟨placed, span⟩ :: rest, last)

/-- Puts the address of its label for the target. -/
def resolve (labels : Labels) (placed : Located Placed) : Result Instruction :=
  let target (name : String) : Result UInt32 :=
    match labels.lookup name with
    | some address => .ok address
    | none => .error ⟨.undefinedLabel name, placed.span⟩
  match placed.val with
  | .jump name => do return .jump (← target name)
  | .call name => do return .call (← target name)
  | .ret => .ok .ret
  | .arith op => .ok (.arith op)
  | .push value => .ok (.push value)
  | .pop => .ok .pop
  | .set hash => .ok (.set hash)
  | .get hash => .ok (.get hash)
  | .unset hash => .ok (.unset hash)
  | .interrupt id => .ok (.interrupt id)

end Layout

def definesPrint (entries : List (Located Entry)) : Bool :=
  entries.any (·.val = .label printName)

/-- Assembles entries. The end of the code has to be addressable too. -/
def Image.ofEntries (hasher : String → UInt64) (entries : List (Located Entry)) :
    Result Image := do
  let (placed, layout) ← Layout.empty.place hasher (definesPrint entries) entries
  if let some last := placed.getLast? then
    let _ ← layout.address last.span
  let resolved ← placed.mapM (Layout.resolve layout.labels)
  return ⟨resolved.flatMap Instruction.encode, layout.labels, layout.names⟩

/-- Assembles a text, names being hashed by `hasher`. The machine itself knows names by
`nameHash`. -/
def assembleWith (hasher : String → UInt64) (text : List Char) : Result Image := do
  Image.ofEntries hasher (← entries (tokens text))

def assemble (text : List Char) : Result Image := assembleWith nameHash text

end StackCalc.Assembly
