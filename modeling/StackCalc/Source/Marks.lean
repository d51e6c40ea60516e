import StackCalc.Source.Syntax

/-!
# Marks

The places of a program that have a span, in the order of the tree: a name before what it belongs
to, parameters before the body, and return statements under the word they begin with. Errors of
programs are about these places.
-/

namespace StackCalc

open Source

/-- A place of a program, with what is done there to the name that is written. -/
inductive Mention
  | read (name : Ident)
  | call (name : Ident)
  | define (name : Ident)
  | param (name : Ident)
  | assign (name : Ident)
  | giveBack (span : Span)

namespace Mention

/-- What stands at the place, under the span of the place. -/
def mark : Mention → Ident
  | read name | call name | define name | param name | assign name => name
  | giveBack span => ⟨"return", span⟩

def span (m : Mention) : Span := m.mark.span

end Mention

namespace Source

mutual

def Expr.mentions : Expr → List Mention
  | .number _ => []
  | .variable name => [.read name]
  | .binary _ lhs rhs => lhs.mentions ++ rhs.mentions
  | .call callee args => .call callee :: Expr.mentionsOfAll args

def Expr.mentionsOfAll : List Expr → List Mention
  | [] => []
  | e :: es => e.mentions ++ Expr.mentionsOfAll es

end

mutual

def Stmt.mentions : Stmt → List Mention
  | .define name params body => .define name :: params.map .param ++ Stmt.mentionsOfAll body
  | .assign target value => .assign target :: value.mentions
  | .giveBack value span => .giveBack span :: value.mentions
  | .eval value => value.mentions

def Stmt.mentionsOfAll : List Stmt → List Mention
  | [] => []
  | s :: ss => s.mentions ++ Stmt.mentionsOfAll ss

end

def Program.mentions (program : Program) : List Mention := Stmt.mentionsOfAll program

def Program.marks (program : Program) : List Ident := program.mentions.map Mention.mark

end Source

end StackCalc
