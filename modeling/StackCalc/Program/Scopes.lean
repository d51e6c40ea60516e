/-!
# Scopes

What is bound where while a program is compiled. A scope holds the variables and functions of the
top level or of one function body; a name means its newest entry in the innermost scope that has
one. In code a variable or function goes by its qualified name, which puts the names of the
enclosing functions in front. No qualified name of a function is given twice, even when its scope
has been left.
-/

namespace StackCalc

structure ScopedName where
  name : String
  qualified : String
deriving DecidableEq

structure FunctionEntry where
  id : ScopedName
  arity : Nat
deriving DecidableEq

/-- Both lists have the newest entry first. -/
structure Scope where
  vars : List ScopedName
  functions : List FunctionEntry
deriving DecidableEq

/-- The body of a function that is being compiled. -/
structure Body where
  function : ScopedName
  scope : Scope
deriving DecidableEq

/-- The bodies have the innermost first. -/
structure Scopes where
  base : Scope
  bodies : List Body
  defined : List String
deriving DecidableEq

namespace Scope

def empty : Scope := ⟨[], []⟩

def bind (scope : Scope) (x : ScopedName) : Scope :=
  { scope with vars := x :: scope.vars }

def define (scope : Scope) (f : FunctionEntry) : Scope :=
  { scope with functions := f :: scope.functions }

end Scope

namespace Scopes

def empty : Scopes := ⟨.empty, [], []⟩

variable (scopes : Scopes)

/-- How many function bodies enclose this place. -/
def depth : Nat := scopes.bodies.length

/-- All scopes that are open, the innermost first. -/
def visible : List Scope := scopes.bodies.map (·.scope) ++ [scopes.base]

def innermost : Scope :=
  match scopes.bodies with
  | [] => scopes.base
  | body :: _ => body.scope

def modifyInnermost (f : Scope → Scope) : Scopes :=
  match scopes.bodies with
  | [] => { scopes with base := f scopes.base }
  | body :: bodies => { scopes with bodies := { body with scope := f body.scope } :: bodies }

/-- The names of the enclosing functions, the outermost first. -/
def path : List String := (scopes.bodies.map (·.function.name)).reverse

def qualify (name : String) : ScopedName := ⟨name, String.intercalate "." (scopes.path ++ [name])⟩

/-- Binds a variable once more in the innermost scope. -/
def bind (name : String) : ScopedName × Scopes :=
  let x := scopes.qualify name
  (x, scopes.modifyInnermost (·.bind x))

def findVariable? (name : String) : Option ScopedName :=
  (scopes.visible.flatMap (·.vars)).find? (·.name = name)

def findFunction? (name : String) : Option FunctionEntry :=
  (scopes.visible.flatMap (·.functions)).find? (·.id.name = name)

/-- Defines a function in the innermost scope and opens its body, where the function is visible
too. Refused if the qualified name has been given before. -/
def enter? (name : String) (arity : Nat) : Option (ScopedName × Scopes) :=
  let f := scopes.qualify name
  if f.qualified ∈ scopes.defined then none
  else
    let outer := scopes.modifyInnermost (·.define ⟨f, arity⟩)
    some (f, ⟨outer.base, ⟨f, .empty⟩ :: outer.bodies, f.qualified :: scopes.defined⟩)

/-- The bindings made in the innermost scope, the newest first. -/
def frameBindings : List ScopedName := scopes.innermost.vars

/-- Closes the innermost body, giving it and what is left. -/
def exit? : Option (Body × Scopes) :=
  match scopes.bodies with
  | [] => none
  | body :: bodies => some (body, { scopes with bodies := bodies })

end Scopes

end StackCalc
