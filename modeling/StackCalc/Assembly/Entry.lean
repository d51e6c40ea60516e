import StackCalc.Assembly.Token

/-!
# Entries of an assembly unit

A unit is read as labels and as mnemonics, each with what stands behind it. The reader looks for the
operand that the mnemonic takes; what it gives on is a mnemonic and an operand, and whoever takes
these looks again whether they go together.
-/

namespace StackCalc.Assembly

/-- What is written behind a mnemonic. -/
inductive Operand where
  | none
  | name (written : String)
  | number (value : Number)
deriving DecidableEq

inductive Entry where
  | label (name : String)
  | command (opcode : Opcode) (operand : Operand)
deriving DecidableEq

/-- Why a unit is refused. Of an operand that is missing it is told what was expected. -/
inductive Refusal where
  | invalidToken (c : Char)
  | unexpectedToken (found : Token)
  | missingOperand (opcode : Opcode) (expected : String)
  | invalidInterrupt
  | duplicateLabel (name : String)
  | undefinedLabel (name : String)
  | hashCollision (first second : String)
  | addressOverflow
deriving DecidableEq

def Refusal.message : Refusal → String
  | invalidToken c => s!"unrecognized input '{c}'"
  | unexpectedToken found => s!"expected an instruction or label instead of '{found.text}'"
  | missingOperand opcode expected => s!"'{opcode.mnemonic}' expects {expected}"
  | invalidInterrupt => "interrupt id must be an integer from 0 to 255"
  | duplicateLabel name => s!"label '{name}' is defined more than once"
  | undefinedLabel name => s!"undefined label '{name}'"
  | hashCollision first second => s!"names '{first}' and '{second}' hash to the same value"
  | addressOverflow => "program does not fit in a 32-bit address space"

abbrev Result := Except (Located Refusal)

abbrev Tokens := List (Located (Except Char Token))

/-- A mnemonic where a name is wanted is a name. -/
def Token.asName? : Token → Option Operand
  | .mnemonic opcode => some (.name opcode.mnemonic)
  | .name written => some (.name written)
  | .label _ | .number _ => none

def Token.asNumber? : Token → Option Operand
  | .number value => some (.number value)
  | .mnemonic _ | .label _ | .name _ => none

/-- The operand at the front of the tokens, together with where it ends. -/
def takeOperand (opcode : Opcode) (expected : String) (pick : Token → Option Operand)
    (span : Span) (tokens : Tokens) : Result (Operand × Nat) :=
  match tokens with
  | [] => .error ⟨.missingOperand opcode expected, span⟩
  | ⟨.error c, place⟩ :: _ => .error ⟨.invalidToken c, place⟩
  | ⟨.ok token, place⟩ :: _ =>
    match pick token with
    | some operand => .ok (operand, place.stop)
    | none => .error ⟨.missingOperand opcode expected, span⟩

/-- Reads the operand that a mnemonic takes, if it takes one. -/
def readOperand (opcode : Opcode) (span : Span) (tokens : Tokens) : Result (Operand × Nat) :=
  match opcode with
  | .jump | .call | .set | .get | .unset => takeOperand opcode "a name" Token.asName? span tokens
  | .push | .interrupt => takeOperand opcode "a number" Token.asNumber? span tokens
  | .ret | .arith _ | .pop => .ok (.none, span.stop)

/-- The number of tokens that an operand is written with. -/
def Operand.tokenCount : Operand → Nat
  | none => 0
  | name _ | number _ => 1

/-- Reads a unit. The span of a command reaches from its mnemonic to the end of its operand. -/
def entries : Tokens → Result (List (Located Entry))
  | [] => .ok []
  | ⟨.error c, span⟩ :: _ => .error ⟨.invalidToken c, span⟩
  | ⟨.ok (.label name), span⟩ :: rest => do return ⟨.label name, span⟩ :: (← entries rest)
  | ⟨.ok (.mnemonic opcode), span⟩ :: rest => do
    let (operand, stop) ← readOperand opcode span rest
    return ⟨.command opcode operand, span.start, stop⟩ ::
      (← entries (rest.drop operand.tokenCount))
  | ⟨.ok found, span⟩ :: _ => .error ⟨.unexpectedToken found, span⟩
termination_by tokens => tokens.length
decreasing_by all_goals simp only [List.length_cons, List.length_drop]; omega

end StackCalc.Assembly
