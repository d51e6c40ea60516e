import StackCalc.Source.Syntax
import StackCalc.Source.Token

/-!
# Parsing

A program is a sequence of statements:

    statement  = definition | "return" sum ";" | name "=" sum ";" | sum ";"
    definition = "def" name "(" [ name { "," name } ] ")" "{" { statement } "}"
    sum        = product { ( "+" | "-" ) product }
    product    = factor { ( "*" | "/" ) factor }
    factor     = "-" factor | number | call | name | "(" sum ")"
    call       = name "(" [ sum { "," sum } ] ")"

Two limits of the same size are kept. Definitions, negations, calls and parentheses may enclose
one another up to the limit, which is what the recursion runs on; and no expression may be higher
than the limit, where chains of operators count too.
-/

namespace StackCalc.Source

def maxNesting : Nat := 256

inductive Expected where
  | identifier
  | expression
  | symbol (s : Symbol)
deriving DecidableEq

def Expected.text : Expected → String
  | identifier => "identifier"
  | expression => "expression"
  | symbol s => s!"'{s.char}'"

inductive ParseError where
  | unexpected (expected : Expected) (found : Token)
  | unexpectedEnd (expected : Expected)
  | tooDeep
deriving DecidableEq

def ParseError.message : ParseError → String
  | unexpected expected found => s!"expected {expected.text} instead of '{found.text}'"
  | unexpectedEnd expected => s!"expected {expected.text}, found end of input"
  | tooDeep => s!"nesting exceeds {maxNesting} levels"

namespace Parser

abbrev Tokens := List (Located Token)

abbrev Checked := Except (Located ParseError)

/-- A reader takes what it reads off the front of the tokens. -/
abbrev Reader (α : Type) := Tokens → Checked (α × Tokens)

/-- An expression and the height of its tree. -/
structure Measured where
  expr : Expr
  height : Nat

/-- The height of a node over children no higher than `height`. -/
def taller (height : Nat) (span : Span) : Checked Nat :=
  if height < maxNesting then .ok (height + 1) else .error ⟨.tooDeep, span⟩

/-- A span that stands for the end of the input, an empty one behind the last token. -/
def endOf (tokens : Tokens) : Span :=
  match tokens.getLast? with
  | some last => ⟨last.span.stop, last.span.stop⟩
  | none => ⟨0, 0⟩

variable {α : Type} (ending : Span)

/-- The error of tokens that do not begin with what was expected. -/
def refuse (expected : Expected) : Tokens → Checked α
  | [] => .error ⟨.unexpectedEnd expected, ending⟩
  | found :: _ => .error ⟨.unexpected expected found.val, found.span⟩

def symbol (s : Symbol) (tokens : Tokens) : Checked (Span × Tokens) :=
  match tokens with
  | ⟨.symbol found, span⟩ :: rest =>
    if found = s then .ok (span, rest) else refuse ending (.symbol s) tokens
  | _ => refuse ending (.symbol s) tokens

def identifier (tokens : Tokens) : Checked (Ident × Tokens) :=
  match tokens with
  | ⟨.identifier name, span⟩ :: rest => .ok (⟨name, span⟩, rest)
  | _ => refuse ending .identifier tokens

/-- Items with commas between them, at least one and at most one more than `fuel`. -/
def separated (item : Reader α) : (fuel : Nat) → Reader (List α)
  | 0, tokens => do
    let (x, rest) ← item tokens
    return ([x], rest)
  | fuel + 1, tokens => do
    let (x, rest) ← item tokens
    match rest with
    | ⟨.symbol .comma, _⟩ :: rest =>
      let (xs, rest) ← separated item fuel rest
      return (x :: xs, rest)
    | _ => return ([x], rest)

/-- Items with commas between them, maybe none, up to the parenthesis that closes them. -/
def enclosed (item : Reader α) (tokens : Tokens) : Checked (List α × Tokens) :=
  match tokens with
  | ⟨.symbol .rightParen, _⟩ :: rest => .ok ([], rest)
  | _ => do
    let (xs, rest) ← separated item tokens.length tokens
    let (_, rest) ← symbol ending .rightParen rest
    return (xs, rest)

def additive? : Token → Option BinaryOp
  | .symbol (.operator .add) => some .add
  | .symbol (.operator .sub) => some .sub
  | _ => none

def multiplicative? : Token → Option BinaryOp
  | .symbol (.operator .mul) => some .mul
  | .symbol (.operator .div) => some .div
  | _ => none

/-- Goes on behind a left operand with up to `fuel` operators and their right operands. -/
def chain (operator? : Token → Option BinaryOp) (operand : Reader Measured) :
    (fuel : Nat) → Measured → Reader Measured
  | 0, lhs, tokens => .ok (lhs, tokens)
  | _ + 1, lhs, [] => .ok (lhs, [])
  | fuel + 1, lhs, token :: rest =>
    match operator? token.val with
    | none => .ok (lhs, token :: rest)
    | some op => do
      let (rhs, rest) ← operand rest
      let height ← taller (max lhs.height rhs.height) token.span
      chain operator? operand fuel ⟨.binary op lhs.expr rhs.expr, height⟩ rest

/-- Operands with operators of one precedence between them. -/
def chained (operator? : Token → Option BinaryOp) (operand : Reader Measured)
    (tokens : Tokens) : Checked (Measured × Tokens) := do
  let (first, rest) ← operand tokens
  chain operator? operand rest.length first rest

def sum (factor : Reader Measured) : Reader Measured :=
  chained additive? (chained multiplicative? factor)

/-- A factor, with `levels` more levels of nesting allowed in it. -/
def factor (levels : Nat) (tokens : Tokens) : Checked (Measured × Tokens) :=
  match tokens with
  | ⟨.number value, _⟩ :: rest => .ok (⟨.number value, 1⟩, rest)
  | ⟨.symbol (.operator .sub), span⟩ :: rest =>
    match levels with
    | 0 => .error ⟨.tooDeep, span⟩
    | levels + 1 => do
      let (operand, rest) ← factor levels rest
      let height ← taller operand.height span
      return (⟨operand.expr.negate, height⟩, rest)
  | ⟨.identifier name, span⟩ :: ⟨.symbol .leftParen, paren⟩ :: rest =>
    match levels with
    | 0 => .error ⟨.tooDeep, paren⟩
    | levels + 1 => do
      let (args, rest) ← enclosed ending (sum (factor levels)) rest
      let height ← taller ((args.map (·.height)).foldl max 0) span
      return (⟨.call ⟨name, span⟩ (args.map (·.expr)), height⟩, rest)
  | ⟨.identifier name, span⟩ :: rest => .ok (⟨.variable ⟨name, span⟩, 1⟩, rest)
  | ⟨.symbol .leftParen, span⟩ :: rest =>
    match levels with
    | 0 => .error ⟨.tooDeep, span⟩
    | levels + 1 => do
      let (inner, rest) ← sum (factor levels) rest
      let (_, rest) ← symbol ending .rightParen rest
      return (inner, rest)
  | _ => refuse ending .expression tokens

def expression (levels : Nat) (tokens : Tokens) : Checked (Expr × Tokens) := do
  let (x, rest) ← sum (factor ending levels) tokens
  return (x.expr, rest)

/-- Up to `fuel` statements and the brace that closes them. -/
def block (statement : Reader Stmt) : (fuel : Nat) → Reader (List Stmt)
  | _, ⟨.symbol .rightBrace, _⟩ :: rest => .ok ([], rest)
  | _, [] => refuse ending (.symbol .rightBrace) []
  | 0, tokens => refuse ending (.symbol .rightBrace) tokens
  | fuel + 1, tokens => do
    let (s, rest) ← statement tokens
    let (ss, rest) ← block statement fuel rest
    return (s :: ss, rest)

/-- What follows the keyword of a definition. -/
def definition (statement : Reader Stmt) (tokens : Tokens) : Checked (Stmt × Tokens) := do
  let (name, rest) ← identifier ending tokens
  let (_, rest) ← symbol ending .leftParen rest
  let (params, rest) ← enclosed ending (identifier ending) rest
  let (_, rest) ← symbol ending .leftBrace rest
  let (body, rest) ← block ending statement rest.length rest
  return (.define name params body, rest)

/-- A statement, with `levels` more levels of nesting allowed in it. -/
def statement (levels : Nat) (tokens : Tokens) : Checked (Stmt × Tokens) :=
  match tokens with
  | ⟨.keyword .define, span⟩ :: rest =>
    match levels with
    | 0 => .error ⟨.tooDeep, span⟩
    | levels + 1 => definition ending (statement levels) rest
  | ⟨.keyword .giveBack, span⟩ :: rest => do
    let (value, rest) ← expression ending levels rest
    let (last, rest) ← symbol ending .semicolon rest
    return (.giveBack value ⟨span.start, last.stop⟩, rest)
  | ⟨.identifier name, span⟩ :: ⟨.symbol .equals, _⟩ :: rest => do
    let (value, rest) ← expression ending levels rest
    let (_, rest) ← symbol ending .semicolon rest
    return (.assign ⟨name, span⟩ value, rest)
  | _ => do
    let (value, rest) ← expression ending levels tokens
    let (_, rest) ← symbol ending .semicolon rest
    return (.eval value, rest)

/-- All the statements there are, up to `fuel`. -/
def statements (statement : Reader Stmt) :
    (fuel : Nat) → Tokens → Checked Program
  | _, [] => .ok []
  | 0, tokens => refuse ending .expression tokens
  | fuel + 1, tokens => do
    let (s, rest) ← statement tokens
    return s :: (← statements statement fuel rest)

end Parser

/-- Parses a whole program. Every statement takes at least one token. -/
def parse (tokens : List (Located Token)) : Except (Located ParseError) Program :=
  let ending := Parser.endOf tokens
  Parser.statements ending (Parser.statement ending maxNesting) tokens.length tokens

end StackCalc.Source
