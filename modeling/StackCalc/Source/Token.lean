import StackCalc.Number.Shortest
import StackCalc.Operator
import StackCalc.Text.Format
import StackCalc.Text.Span

/-!
# Tokens of the language

Keywords, identifiers, numbers and symbols. The longest token is read at every place, and reading
ends at the first character that begins none and at the first number too large to be finite.
-/

namespace StackCalc.Source

inductive Keyword where
  | define
  | giveBack
deriving DecidableEq

def Keyword.text : Keyword → String
  | define => "def"
  | giveBack => "return"

inductive Symbol where
  | operator (op : BinaryOp)
  | leftParen
  | rightParen
  | leftBrace
  | rightBrace
  | equals
  | semicolon
  | comma
deriving DecidableEq

namespace Symbol

def char : Symbol → Char
  | operator op => op.symbol
  | leftParen => '('
  | rightParen => ')'
  | leftBrace => '{'
  | rightBrace => '}'
  | equals => '='
  | semicolon => ';'
  | comma => ','

def all : List Symbol :=
  BinaryOp.all.map operator ++
    [leftParen, rightParen, leftBrace, rightBrace, equals, semicolon, comma]

def ofChar? (c : Char) : Option Symbol := all.find? (·.char = c)

theorem ofChar?_char (s : Symbol) : ofChar? s.char = some s := by
  cases s with
  | operator op => cases op <;> rfl
  | _ => rfl

end Symbol

inductive Token where
  | keyword (k : Keyword)
  | identifier (name : String)
  | number (value : Number)
  | symbol (s : Symbol)
deriving DecidableEq

def Token.text : Token → String
  | keyword k => k.text
  | identifier name => name
  | number value => value.text
  | symbol s => String.singleton s.char

/-- Why a text does not fall into tokens. -/
inductive LexError where
  | unknownSymbol (c : Char)
  | malformedNumber
deriving DecidableEq

def LexError.message : LexError → String
  | unknownSymbol c => s!"unknown symbol '{c}'"
  | malformedNumber => "malformed number"

namespace Lexer

def startsName (c : Char) : Bool := c.isAlpha || c = '_'

def continuesName (c : Char) : Bool := c.isAlphanum || c = '_'

/-- What belongs to a number behind its first digit: digits, and a point with the digits behind
it, if any. -/
def numberTail (rest : List Char) : List Char :=
  let whole := rest.takeWhile Char.isDigit
  match rest.drop whole.length with
  | '.' :: rest => whole ++ '.' :: rest.takeWhile Char.isDigit
  | _ => whole

def word (name : String) : Token :=
  if name = Keyword.define.text then .keyword .define
  else if name = Keyword.giveBack.text then .keyword .giveBack
  else .identifier name

def literal (digits : List Char) : Except LexError Token :=
  let value := Number.read digits
  if value.isFinite then .ok (.number value) else .error .malformedNumber

/-- The token that begins with `c` and what it takes of the rest. -/
def scan (c : Char) (rest : List Char) : Except LexError Token × List Char :=
  if startsName c then
    let tail := rest.takeWhile continuesName
    (.ok (word (String.ofList (c :: tail))), tail)
  else if c.isDigit then
    let tail := numberTail rest
    (literal (c :: tail), tail)
  else
    match Symbol.ofChar? c with
    | some s => (.ok (.symbol s), [])
    | none => (.error (.unknownSymbol c), [])

end Lexer

/-- The tokens of a text that begins at byte `start`. -/
def tokensFrom (start : Nat) (text : List Char) :
    Except (Located LexError) (List (Located Token)) :=
  match text with
  | [] => .ok []
  | c :: rest =>
    if Text.isBlank c then tokensFrom (start + c.utf8Size) rest
    else
      let (scanned, tail) := Lexer.scan c rest
      let stop := start + Text.byteLength (c :: tail)
      match scanned with
      | .error e => .error ⟨e, start, stop⟩
      | .ok token => do return ⟨token, start, stop⟩ :: (← tokensFrom stop (rest.drop tail.length))
termination_by text.length
decreasing_by all_goals simp only [List.length_cons, List.length_drop]; omega

def tokens (text : List Char) : Except (Located LexError) (List (Located Token)) :=
  tokensFrom 0 text

end StackCalc.Source
