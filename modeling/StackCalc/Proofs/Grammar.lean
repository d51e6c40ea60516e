import StackCalc.Source.Parser

/-!
# The grammar of programs

A derivation has one constructor for each alternative of a rule of the grammar:

    program    = { statement }
    statement  = definition | "return" sum ";" | name "=" sum ";" | sum ";"
    definition = "def" name "(" parameters ")" "{" program "}"
    parameters = [ names ]                    names = name { "," name }
    sum        = product { ( "+" | "-" ) product }
    product    = factor { ( "*" | "/" ) factor }
    factor     = "-" factor | number | call | name | "(" sum ")"
    call       = name "(" arguments ")"
    arguments  = [ sums ]                     sums = sum { "," sum }

It has the tokens that it derives and the tree that it stands for. No limit is part of the
grammar; how deep constructs enclose a token is counted on the derivation.
-/

namespace StackCalc.Source

/-- Operators of one precedence. -/
inductive Rank where
  | additive
  | multiplicative

/-- A factor, or operands with operators of one rank between them. -/
inductive Precedence where
  | factor
  | chain (rank : Rank)

namespace Rank

def operators : Rank → List BinaryOp
  | additive => [.add, .sub]
  | multiplicative => [.mul, .div]

/-- What stands between the operators: products in a sum, factors in a product. -/
def operand : Rank → Precedence
  | additive => .chain .multiplicative
  | multiplicative => .factor

end Rank

inductive Nonterminal where
  | program
  | statement
  | definition
  | parameters
  | names
  | expression (precedence : Precedence)
  | call
  | arguments
  | sums

namespace Nonterminal

abbrev factor : Nonterminal := expression .factor

abbrev sum : Nonterminal := expression (.chain .additive)

/-- What a derivation from the nonterminal stands for. -/
abbrev Tree : Nonterminal → Type
  | program => Program
  | statement | definition => Stmt
  | parameters | names => List Ident
  | expression _ | call => Expr
  | arguments | sums => List Expr

end Nonterminal

inductive Derivation : Nonterminal → Type where
  | done : Derivation .program
  | next (first : Derivation .statement) (later : Derivation .program) : Derivation .program
  | defining (d : Derivation .definition) : Derivation .statement
  | returning (keyword : Span) (value : Derivation .sum) (semicolon : Span) :
      Derivation .statement
  | assigning (target : Ident) (equals : Span) (value : Derivation .sum) (semicolon : Span) :
      Derivation .statement
  | evaluating (value : Derivation .sum) (semicolon : Span) : Derivation .statement
  | definition (keyword : Span) (name : Ident) (leftParen : Span)
      (params : Derivation .parameters) (rightParen leftBrace : Span)
      (body : Derivation .program) (rightBrace : Span) : Derivation .definition
  | noNames : Derivation .parameters
  | someNames (names : Derivation .names) : Derivation .parameters
  | lastName (name : Ident) : Derivation .names
  | moreNames (name : Ident) (comma : Span) (later : Derivation .names) : Derivation .names
  | single {rank : Rank} (x : Derivation (.expression rank.operand)) :
      Derivation (.expression (.chain rank))
  | operation {rank : Rank} (lhs : Derivation (.expression (.chain rank))) (op : BinaryOp)
      (h : op ∈ rank.operators) (place : Span) (rhs : Derivation (.expression rank.operand)) :
      Derivation (.expression (.chain rank))
  | negation (minus : Span) (operand : Derivation .factor) : Derivation .factor
  | number (value : Number) (span : Span) : Derivation .factor
  | calling (d : Derivation .call) : Derivation .factor
  | named (name : Ident) : Derivation .factor
  | grouping (leftParen : Span) (inner : Derivation .sum) (rightParen : Span) :
      Derivation .factor
  | call (callee : Ident) (leftParen : Span) (args : Derivation .arguments) (rightParen : Span) :
      Derivation .call
  | noSums : Derivation .arguments
  | someSums (sums : Derivation .sums) : Derivation .arguments
  | lastSum (x : Derivation .sum) : Derivation .sums
  | moreSums (x : Derivation .sum) (comma : Span) (later : Derivation .sums) : Derivation .sums

/-- The token that a name was read from. -/
abbrev Ident.token (name : Ident) : Located Token := ⟨.identifier name.val, name.span⟩

abbrev Symbol.at (s : Symbol) (span : Span) : Located Token := ⟨.symbol s, span⟩

abbrev Keyword.at (k : Keyword) (span : Span) : Located Token := ⟨.keyword k, span⟩

/-- The tokens that a factor may begin with. -/
def opensFactor : Token → Bool
  | .number _ | .identifier _ | .symbol (.operator .sub) | .symbol .leftParen => true
  | _ => false

namespace Derivation

variable {N : Nonterminal}

def tokens {N : Nonterminal} : Derivation N → List (Located Token)
  | done => []
  | next first later => first.tokens ++ later.tokens
  | defining d => d.tokens
  | returning keyword value semicolon =>
    Keyword.giveBack.at keyword :: (value.tokens ++ [Symbol.semicolon.at semicolon])
  | assigning target equals value semicolon =>
    target.token :: Symbol.equals.at equals ::
      (value.tokens ++ [Symbol.semicolon.at semicolon])
  | evaluating value semicolon => value.tokens ++ [Symbol.semicolon.at semicolon]
  | definition keyword name leftParen params rightParen leftBrace body rightBrace =>
    Keyword.define.at keyword :: name.token :: Symbol.leftParen.at leftParen ::
      (params.tokens ++ Symbol.rightParen.at rightParen :: Symbol.leftBrace.at leftBrace ::
        (body.tokens ++ [Symbol.rightBrace.at rightBrace]))
  | noNames => []
  | someNames names => names.tokens
  | lastName name => [name.token]
  | moreNames name comma later => name.token :: Symbol.comma.at comma :: later.tokens
  | single x => x.tokens
  | operation lhs op _ place rhs => lhs.tokens ++ (Symbol.operator op).at place :: rhs.tokens
  | negation minus operand => (Symbol.operator .sub).at minus :: operand.tokens
  | number value span => [⟨.number value, span⟩]
  | calling d => d.tokens
  | named name => [name.token]
  | grouping leftParen inner rightParen =>
    Symbol.leftParen.at leftParen :: (inner.tokens ++ [Symbol.rightParen.at rightParen])
  | call callee leftParen args rightParen =>
    callee.token :: Symbol.leftParen.at leftParen ::
      (args.tokens ++ [Symbol.rightParen.at rightParen])
  | noSums => []
  | someSums sums => sums.tokens
  | lastSum x => x.tokens
  | moreSums x comma later => x.tokens ++ Symbol.comma.at comma :: later.tokens

/-- Chains are grouped from the left, and a negation is a subtraction from zero. -/
def tree {N : Nonterminal} : Derivation N → N.Tree
  | done => []
  | next first later => first.tree :: later.tree
  | defining d => d.tree
  | returning keyword value semicolon => .giveBack value.tree ⟨keyword.start, semicolon.stop⟩
  | assigning target _ value _ => .assign target value.tree
  | evaluating value _ => .eval value.tree
  | definition _ name _ params _ _ body _ => .define name params.tree body.tree
  | noNames => []
  | someNames names => names.tree
  | lastName name => [name]
  | moreNames name _ later => name :: later.tree
  | single x => x.tree
  | operation lhs op _ _ rhs => .binary op lhs.tree rhs.tree
  | negation _ operand => Expr.binary .sub (.number .zero) operand.tree
  | number value _ => .number value
  | calling d => d.tree
  | named name => .variable name
  | grouping _ inner _ => inner.tree
  | call callee _ args _ => .call callee args.tree
  | noSums => []
  | someSums sums => sums.tree
  | lastSum x => [x.tree]
  | moreSums x _ later => x.tree :: later.tree

/-- A derivation begins with a token that no list and no body ends with. -/
def Opens : (N : Nonterminal) → Derivation N → Prop
  | .expression _, d | .call, d | .sums, d =>
    ∃ t behind, d.tokens = t :: behind ∧ opensFactor t.val = true
  | _, _ => True

theorem opens (d : Derivation N) : Opens N d := by
  induction d with
  | single x ih | calling d ih | lastSum x ih => exact ih
  | operation lhs op h place rhs ih | moreSums x comma later ih =>
      obtain ⟨t, behind, htokens, ht⟩ := ih
      exact ⟨t, _, by rw [tokens, htokens, List.cons_append], ht⟩
  | negation | number | named | grouping | call => exact ⟨_, _, rfl, rfl⟩
  | _ => trivial

theorem exists_head (d : Derivation .statement) :
    ∃ t behind, d.tokens = t :: behind ∧ t.val ≠ .symbol .rightBrace := by
  cases d with
  | defining d =>
      cases d
      exact ⟨_, _, rfl, (fun h => by cases h)⟩
  | returning | assigning => exact ⟨_, _, rfl, (fun h => by cases h)⟩
  | evaluating value semicolon =>
      obtain ⟨t, behind, htokens, ht⟩ := value.opens
      refine ⟨t, _, by rw [tokens, htokens, List.cons_append], ?_⟩
      intro hbrace
      rw [hbrace] at ht
      cases ht

/-- For each token, how many definitions, negations, argument lists and parentheses it is part of,
with `outer` of them around the whole. -/
def depths {N : Nonterminal} (outer : Nat) : Derivation N → List Nat
  | done => []
  | next first later => first.depths outer ++ later.depths outer
  | defining d => d.depths outer
  | returning _ value _ => outer :: (value.depths outer ++ [outer])
  | assigning _ _ value _ => outer :: outer :: (value.depths outer ++ [outer])
  | evaluating value _ => value.depths outer ++ [outer]
  | definition _ _ _ params _ _ body _ =>
    let inner := outer + 1
    inner :: inner :: inner ::
      (params.depths inner ++ inner :: inner :: (body.depths inner ++ [inner]))
  | noNames => []
  | someNames names => names.depths outer
  | lastName _ => [outer]
  | moreNames _ _ later => outer :: outer :: later.depths outer
  | single x => x.depths outer
  | operation lhs _ _ _ rhs => lhs.depths outer ++ outer :: rhs.depths outer
  | negation _ operand => (outer + 1) :: operand.depths (outer + 1)
  | number _ _ => [outer]
  | calling d => d.depths outer
  | named _ => [outer]
  | grouping _ inner _ => (outer + 1) :: (inner.depths (outer + 1) ++ [outer + 1])
  | call _ _ args _ => outer :: (outer + 1) :: (args.depths (outer + 1) ++ [outer + 1])
  | noSums => []
  | someSums sums => sums.depths outer
  | lastSum x => x.depths outer
  | moreSums x _ later => x.depths outer ++ outer :: later.depths outer

/-- How many definitions, negations, argument lists and parentheses are in one another. -/
def nesting {N : Nonterminal} : Derivation N → Nat
  | done | noNames | lastName _ | number _ _ | named _ | noSums => 0
  | next first later => max first.nesting later.nesting
  | defining d => d.nesting
  | returning _ value _ => value.nesting
  | assigning _ _ value _ => value.nesting
  | evaluating value _ => value.nesting
  | definition _ _ _ params _ _ body _ => max params.nesting body.nesting + 1
  | someNames names => names.nesting
  | moreNames _ _ later => later.nesting
  | single x => x.nesting
  | operation lhs _ _ _ rhs => max lhs.nesting rhs.nesting
  | negation _ operand => operand.nesting + 1
  | calling d => d.nesting
  | grouping _ inner _ => inner.nesting + 1
  | call _ _ args _ => args.nesting + 1
  | someSums sums => sums.nesting
  | lastSum x => x.nesting
  | moreSums x _ later => max x.nesting later.nesting

/-- The deepest token is as deep as the nesting says. -/
theorem depths_le_iff (d : Derivation N) {outer limit : Nat} (h : outer ≤ limit) :
    (∀ depth ∈ d.depths outer, depth ≤ limit) ↔ outer + d.nesting ≤ limit := by
  induction d generalizing outer with
  | done | noNames | noSums => simp [depths, nesting, h]
  | lastName | number | named => simp [depths, nesting]
  | defining d ih | someNames d ih | someSums d ih | lastSum d ih | single d ih
    | calling d ih => exact ih h
  | next first later ih ih' =>
      simp only [depths, nesting, List.forall_mem_append, ih h, ih' h]
      omega
  | returning keyword value semicolon ih | evaluating value semicolon ih
    | assigning target equals value semicolon ih =>
      simp only [depths, nesting, List.forall_mem_append, List.forall_mem_cons, ih h]
      simp [h]
  | definition keyword name leftParen params rightParen leftBrace body rightBrace ih ih' =>
      simp only [depths, nesting, List.forall_mem_append, List.forall_mem_cons]
      constructor
      · rintro ⟨hin, -, -, hparams, -, -, hbody, -⟩
        have := (ih hin).1 hparams
        have := (ih' hin).1 hbody
        omega
      · intro hle
        have hin : outer + 1 ≤ limit := by omega
        exact ⟨hin, hin, hin, (ih hin).2 (by omega), hin, hin, (ih' hin).2 (by omega), hin,
          List.forall_mem_nil _⟩
  | moreNames name comma later ih => simp [depths, nesting, ih h, h]
  | operation lhs op hop place rhs ih ih' | moreSums x comma later ih ih' =>
      simp only [depths, nesting, List.forall_mem_append, List.forall_mem_cons, ih h, ih' h]
      omega
  | negation minus operand ih =>
      simp only [depths, nesting, List.forall_mem_cons]
      constructor
      · rintro ⟨hin, hall⟩
        have := (ih hin).1 hall
        omega
      · intro hle
        have hin : outer + 1 ≤ limit := by omega
        exact ⟨hin, (ih hin).2 (by omega)⟩
  | grouping leftParen inner rightParen ih | call callee leftParen inner rightParen ih =>
      simp only [depths, nesting, List.forall_mem_append, List.forall_mem_cons, h, true_and]
      constructor
      · rintro ⟨hin, hall, -⟩
        have := (ih hin).1 hall
        omega
      · intro hle
        have hin : outer + 1 ≤ limit := by omega
        exact ⟨hin, (ih hin).2 (by omega), hin, List.forall_mem_nil _⟩

end Derivation

mutual

/-- The height of the tree, one for a leaf and for a call without arguments. -/
def Expr.height : Expr → Nat
  | .number _ | .variable _ => 1
  | .binary _ lhs rhs => max lhs.height rhs.height + 1
  | .call _ args => Expr.heightOfAll args + 1

def Expr.heightOfAll : List Expr → Nat
  | [] => 0
  | e :: es => max e.height (Expr.heightOfAll es)

end

mutual

/-- The expressions of a statement, but for the lower ones inside them. -/
def Stmt.expressions : Stmt → List Expr
  | .define _ _ body => Stmt.expressionsOfAll body
  | .assign _ value | .giveBack value _ | .eval value => [value]

def Stmt.expressionsOfAll : List Stmt → List Expr
  | [] => []
  | s :: ss => s.expressions ++ Stmt.expressionsOfAll ss

end

/-- The tokens that a program can be written with, whatever its size. -/
def Derivable (tokens : List (Located Token)) : Prop :=
  ∃ d : Derivation .program, d.tokens = tokens

/-- The tokens that a program can begin with. -/
def Viable (front : List (Located Token)) : Prop := ∃ more, Derivable (front ++ more)

/-- Nothing is enclosed too often, and no expression is too high. -/
structure Derivation.WithinLimits (d : Derivation .program) : Prop where
  depths : ∀ depth ∈ d.depths 0, depth ≤ maxNesting
  heights : ∀ e ∈ Stmt.expressionsOfAll d.tree, e.height ≤ maxNesting

end StackCalc.Source
