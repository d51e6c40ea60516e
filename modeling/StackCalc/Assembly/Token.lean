import StackCalc.Code.Operation
import StackCalc.Text.Format
import StackCalc.Text.Span

/-!
# Tokens of the assembly language

Mnemonics, labels with their colon, names and numbers; comments run from a semicolon to the end of
the line. The longest token is read at every place. A character that begins none is passed on by
itself, and reading goes on behind it.
-/

namespace StackCalc.Assembly

inductive Token where
  | mnemonic (opcode : Opcode)
  | label (written : String)
  | name (written : String)
  | number (value : Number)
deriving DecidableEq

def Token.text : Token → String
  | mnemonic opcode => opcode.mnemonic
  | label written => written ++ ":"
  | name written => written
  | number value => value.text

namespace Lexer

def startsName (c : Char) : Bool := c.isAlpha || c = '_' || c = '@'

def continuesName (c : Char) : Bool := c.isAlphanum || c = '_' || c = '@' || c = '.'

/-- A point counts only with a digit behind it. -/
def fractionTail : List Char → List Char
  | '.' :: rest =>
    match rest.takeWhile Char.isDigit with
    | [] => []
    | digits => '.' :: digits
  | _ => []

def signTail : List Char → List Char
  | '+' :: _ => ['+']
  | '-' :: _ => ['-']
  | _ => []

/-- The letter of an exponent counts only with digits behind it or its sign. -/
def exponentTail : List Char → List Char
  | [] => []
  | c :: rest =>
    if c = 'e' || c = 'E' then
      let sign := signTail rest
      match (rest.drop sign.length).takeWhile Char.isDigit with
      | [] => []
      | digits => c :: sign ++ digits
    else []

/-- What belongs to a number behind its first digit or its minus sign. -/
def numberTail (rest : List Char) : List Char :=
  let whole := rest.takeWhile Char.isDigit
  let rest := rest.drop whole.length
  let fraction := fractionTail rest
  whole ++ fraction ++ exponentTail (rest.drop fraction.length)

def startsNumber (c : Char) (rest : List Char) : Bool :=
  c.isDigit || (c = '-' && (rest.takeWhile Char.isDigit).length != 0)

def word (name : String) : Token :=
  match Opcode.ofMnemonic? name with
  | some opcode => .mnemonic opcode
  | none => .name name

/-- The token that begins with `c`, or `c` itself if none does, and what it takes of the rest. -/
def scan (c : Char) (rest : List Char) : Except Char Token × List Char :=
  if startsName c then
    let tail := rest.takeWhile continuesName
    let name := String.ofList (c :: tail)
    if (rest.drop tail.length).head? = some ':' then (.ok (.label name), tail ++ [':'])
    else (.ok (word name), tail)
  else if startsNumber c rest then
    let tail := numberTail rest
    (.ok (.number (Number.read (c :: tail))), tail)
  else (.error c, [])

end Lexer

/-- The tokens of a text that begins at byte `start`. -/
def tokensFrom (start : Nat) (text : List Char) : List (Located (Except Char Token)) :=
  match text with
  | [] => []
  | c :: rest =>
    if Text.isBlank c then tokensFrom (start + c.utf8Size) rest
    else if c = ';' then
      let comment := rest.takeWhile (· != '\n')
      tokensFrom (start + Text.byteLength (c :: comment)) (rest.drop comment.length)
    else
      let scanned := Lexer.scan c rest
      let stop := start + Text.byteLength (c :: scanned.2)
      ⟨scanned.1, start, stop⟩ :: tokensFrom stop (rest.drop scanned.2.length)
termination_by text.length
decreasing_by all_goals simp only [List.length_cons, List.length_drop]; omega

def tokens (text : List Char) : List (Located (Except Char Token)) := tokensFrom 0 text

end StackCalc.Assembly
