import Mathlib.Data.List.Forall2
import StackCalc.Proofs.ScopeHistory

/-!
# Scopes kept on stacks

Scopes can be kept in a table whose names are handles of an interner. The variables and functions
of all open bodies lie on two stacks, and a body knows no more than how high these were when it was
entered. Whatever is called, the table answers as scopes do whose bodies own what they bind.
-/

namespace StackCalc

/-- Handles for strings. A string has one from when it is interned, always the same, and the handle
stands for this string. -/
structure Interner where
  Table : Type
  Key : Type
  decEq : DecidableEq Key
  empty : Table
  key? : Table → String → Option Key
  intern : Table → String → Key × Table
  resolve : Table → Key → String
  key?_intern : ∀ strings s s', key? (intern strings s).2 s' =
    if s' = s then some (intern strings s).1 else key? strings s'
  intern_of_key? : ∀ {strings s key}, key? strings s = some key → (intern strings s).1 = key
  resolve_of_key? : ∀ {strings s key}, key? strings s = some key → resolve strings key = s

open Source

namespace ScopeTable

structure Symbol (I : Interner) where
  name : I.Key
  qualified : I.Key

structure Function (I : Interner) where
  symbol : Symbol I
  arity : Nat

/-- A function whose body is open, and how high the stacks were where the body began. -/
structure Frame (I : Interner) where
  function : Symbol I
  varsBase : Nat
  functionsBase : Nat

end ScopeTable

/-- The stacks have their top first, and the frames the innermost. -/
structure ScopeTable (I : Interner) where
  strings : I.Table
  vars : List (ScopeTable.Symbol I)
  functions : List (ScopeTable.Function I)
  frames : List (ScopeTable.Frame I)
  defined : List I.Key

namespace ScopeTable

variable {I : Interner}

instance : DecidableEq I.Key := I.decEq

def empty (I : Interner) : ScopeTable I := ⟨I.empty, [], [], [], []⟩

/-- The names of the functions around a place, with a point behind each. -/
def front (strings : I.Table) (frames : List (Frame I)) : String :=
  frames.foldr (fun frame front => front ++ I.resolve strings frame.function.name ++ ".") ""

def qualify (t : ScopeTable I) (name : String) : Symbol I × ScopeTable I :=
  let qualified := front t.strings t.frames ++ name
  let (key, strings) := I.intern t.strings name
  let (qualifiedKey, strings) := I.intern strings qualified
  (⟨key, qualifiedKey⟩, { t with strings := strings })

def bind (t : ScopeTable I) (name : String) : Symbol I × ScopeTable I :=
  let (x, t) := t.qualify name
  (x, { t with vars := x :: t.vars })

def findVariable? (t : ScopeTable I) (name : String) : Option (Symbol I) :=
  (I.key? t.strings name).bind fun key => t.vars.find? (·.name = key)

def findFunction? (t : ScopeTable I) (name : String) : Option (Function I) :=
  (I.key? t.strings name).bind fun key => t.functions.find? (·.symbol.name = key)

/-- A function that is refused leaves its name behind as an interned string. -/
def enter? (t : ScopeTable I) (name : String) (arity : Nat) :
    Option (Symbol I) × ScopeTable I :=
  let (f, t) := t.qualify name
  if f.qualified ∈ t.defined then (none, t)
  else
    let functions := ⟨f, arity⟩ :: t.functions
    (some f, { t with
      functions := functions
      frames := ⟨f, t.vars.length, functions.length⟩ :: t.frames
      defined := f.qualified :: t.defined })

/-- What lies on a stack above a height. -/
def above {α : Type} (height : Nat) (stack : List α) : List α :=
  stack.take (stack.length - height)

/-- What is left of a stack once it is taken back to a height. -/
def upTo {α : Type} (height : Nat) (stack : List α) : List α :=
  stack.drop (stack.length - height)

def frameBindings (t : ScopeTable I) : List (Symbol I) :=
  above ((t.frames.head?.map (·.varsBase)).getD 0) t.vars

/-- Takes the stacks back to the heights that they had where the body began. -/
def exit? (t : ScopeTable I) : Option ((Symbol I × List (Symbol I)) × ScopeTable I) :=
  match t.frames with
  | [] => none
  | frame :: frames =>
    some ((frame.function, above frame.varsBase t.vars), { t with
      vars := upTo frame.varsBase t.vars
      functions := upTo frame.functionsBase t.functions
      frames := frames })

/-- What a symbol stands for. -/
def named (t : ScopeTable I) (symbol : Symbol I) : ScopedName :=
  ⟨I.resolve t.strings symbol.name, I.resolve t.strings symbol.qualified⟩

def answers (t : ScopeTable I) : Scopes.Answers where
  depth := t.frames.length
  findVariable? x := (t.findVariable? x).map t.named
  findFunction? x := (t.findFunction? x).map fun f => ⟨t.named f.symbol, f.arity⟩
  frameBindings := t.frameBindings.map t.named
  bind x :=
    let (symbol, t) := t.bind x
    t.named symbol
  enter? f arity :=
    let (symbol?, t) := t.enter? f arity
    symbol?.map t.named
  exit? := t.exit?.map fun ((f, released), t) => (t.named f, released.map t.named)

def carryOut (t : ScopeTable I) : Scopes.Call → ScopeTable I
  | .bind x => (t.bind x).2
  | .enter f arity => (t.enter? f arity).2
  | .exit => (t.exit?.map (·.2)).getD t

/-- The table after calls, the latest of which is the first. -/
def after (I : Interner) : List Scopes.Call → ScopeTable I
  | [] => empty I
  | c :: past => (after I past).carryOut c

section Heights

variable {α : Type} (own below : List α)

theorem above_append : above below.length (own ++ below) = own :=
  List.take_left' (by simp)

theorem upTo_append : upTo below.length (own ++ below) = below :=
  List.drop_left' (by simp)

end Heights

section Entering

variable {t : ScopeTable I} {f : String}

theorem enter?_of_mem (h : (t.qualify f).1.qualified ∈ (t.qualify f).2.defined) (arity : Nat) :
    t.enter? f arity = (none, (t.qualify f).2) := if_pos h

theorem enter?_of_not_mem (h : (t.qualify f).1.qualified ∉ (t.qualify f).2.defined)
    (arity : Nat) : t.enter? f arity = (some (t.qualify f).1, { (t.qualify f).2 with
      functions := ⟨(t.qualify f).1, arity⟩ :: t.functions
      frames := ⟨(t.qualify f).1, t.vars.length, t.functions.length + 1⟩ :: t.frames
      defined := (t.qualify f).1.qualified :: t.defined }) := if_neg h

end Entering

section Meaning

variable {strings strings' : I.Table}

/-- The handle of a string. -/
def Keyed (strings : I.Table) (key : I.Key) (s : String) : Prop := I.key? strings s = some key

theorem biUnique_keyed (strings : I.Table) : Relator.BiUnique (Keyed strings) := by
  refine ⟨fun key key' s h h' => ?_, fun key s s' h h' => ?_⟩
  · exact Option.some.inj (Eq.trans (Eq.symm h) h')
  · rw [← I.resolve_of_key? h, I.resolve_of_key? h']

theorem Keyed.key?_eq_iff {key : I.Key} {s : String} (h : Keyed strings key s) (s' : String) :
    I.key? strings s' = some key ↔ s = s' := by
  refine ⟨fun h' => (biUnique_keyed strings).2 h h', ?_⟩
  rintro rfl
  exact h

/-- All that has a handle keeps it. -/
def Grows (strings strings' : I.Table) : Prop :=
  ∀ key s, Keyed strings key s → Keyed strings' key s

theorem grows_intern (strings : I.Table) (s : String) : Grows strings (I.intern strings s).2 := by
  intro key s' h
  rw [Keyed, I.key?_intern]
  split
  · next heq => rw [I.intern_of_key? (heq ▸ h)]
  · exact h

theorem keyed_intern (strings : I.Table) (s : String) :
    Keyed (I.intern strings s).2 (I.intern strings s).1 s :=
  (I.key?_intern strings s s).trans (if_pos rfl)

structure Symbol.Means (strings : I.Table) (symbol : Symbol I) (id : ScopedName) : Prop where
  name : Keyed strings symbol.name id.name
  qualified : Keyed strings symbol.qualified id.qualified

structure Function.Means (strings : I.Table) (f : Function I) (entry : FunctionEntry) :
    Prop where
  symbol : f.symbol.Means strings entry.id
  arity : f.arity = entry.arity

theorem Symbol.Means.grows {symbol : Symbol I} {id : ScopedName} (h : symbol.Means strings id)
    (hgrows : Grows strings strings') : symbol.Means strings' id :=
  ⟨hgrows _ _ h.name, hgrows _ _ h.qualified⟩

theorem Function.Means.grows {f : Function I} {entry : FunctionEntry}
    (h : f.Means strings entry) (hgrows : Grows strings strings') : f.Means strings' entry :=
  ⟨h.symbol.grows hgrows, h.arity⟩

/-- The stacks are those of bodies with scopes of their own, put one on the other. -/
inductive Stacked (strings : I.Table) (base : Scope) : List (Frame I) → List Body →
    List (Symbol I) → List (Function I) → Prop
  | top {vars functions} (hvars : List.Forall₂ (Symbol.Means strings) vars base.vars)
      (hfunctions : List.Forall₂ (Function.Means strings) functions base.functions) :
      Stacked strings base [] [] vars functions
  | body {function frames bodies vars functions ownVars ownFunctions} {b : Body}
      (h : Stacked strings base frames bodies vars functions)
      (hfunction : function.Means strings b.function)
      (hvars : List.Forall₂ (Symbol.Means strings) ownVars b.scope.vars)
      (hfunctions : List.Forall₂ (Function.Means strings) ownFunctions b.scope.functions) :
      Stacked strings base (⟨function, vars.length, functions.length⟩ :: frames) (b :: bodies)
        (ownVars ++ vars) (ownFunctions ++ functions)

namespace Stacked

variable {base : Scope} {frames : List (Frame I)} {bodies : List Body} {vars : List (Symbol I)}
  {functions : List (Function I)}

theorem grows (h : Stacked strings base frames bodies vars functions)
    (hgrows : Grows strings strings') :
    Stacked strings' base frames bodies vars functions := by
  induction h with
  | top hvars hfunctions =>
      exact .top (hvars.imp fun _ _ h => h.grows hgrows)
        (hfunctions.imp fun _ _ h => h.grows hgrows)
  | body _ hfunction hvars hfunctions ih =>
      exact .body ih (hfunction.grows hgrows) (hvars.imp fun _ _ h => h.grows hgrows)
        (hfunctions.imp fun _ _ h => h.grows hgrows)

theorem length_eq (h : Stacked strings base frames bodies vars functions) :
    frames.length = bodies.length := by
  induction h with
  | top => rfl
  | body _ _ _ _ ih => exact congrArg Nat.succ ih

/-- Together the scopes have what lies on the stacks. -/
theorem flatMap_vars (h : Stacked strings base frames bodies vars functions) :
    List.Forall₂ (Symbol.Means strings) vars
      ((bodies.map (·.scope) ++ [base]).flatMap (·.vars)) := by
  induction h with
  | top hvars => simpa using hvars
  | body _ _ hvars _ ih =>
      rw [List.map_cons, List.cons_append, List.flatMap_cons]
      exact List.rel_append hvars ih

theorem flatMap_functions (h : Stacked strings base frames bodies vars functions) :
    List.Forall₂ (Function.Means strings) functions
      ((bodies.map (·.scope) ++ [base]).flatMap (·.functions)) := by
  induction h with
  | top _ hfunctions => simpa using hfunctions
  | body _ _ _ hfunctions ih =>
      rw [List.map_cons, List.cons_append, List.flatMap_cons]
      exact List.rel_append hfunctions ih

theorem front_append (h : Stacked strings base frames bodies vars functions) (name : String) :
    front strings frames ++ name =
      (qualifiedBy (bodies.map (·.function.name)).reverse name).qualified := by
  induction h generalizing name with
  | top =>
      change "" ++ name = String.intercalate "." [name]
      rw [String.empty_append, String.intercalate_singleton]
  | body _ hfunction _ _ ih =>
      rw [List.map_cons, List.reverse_cons, qualifiedBy_snoc, ← ih,
        ← I.resolve_of_key? hfunction.name]
      rfl

/-- What is added to the innermost scope lies on top of the stacks. -/
theorem grow {s : Scopes} (h : Stacked strings s.base frames s.bodies vars functions)
    {newVars : List (Symbol I)} {newFunctions : List (Function I)} {ids : List ScopedName}
    {entries : List FunctionEntry} (hvars : List.Forall₂ (Symbol.Means strings) newVars ids)
    (hfunctions : List.Forall₂ (Function.Means strings) newFunctions entries)
    (names : List String) :
    Stacked strings (s.grow ids entries names).base frames (s.grow ids entries names).bodies
      (newVars ++ vars) (newFunctions ++ functions) := by
  obtain ⟨base, bodies, defined⟩ := s
  cases h with
  | top hown hown' => exact .top (List.rel_append hvars hown) (List.rel_append hfunctions hown')
  | body h hfunction hown hown' =>
      rw [← List.append_assoc, ← List.append_assoc]
      exact .body h hfunction (List.rel_append hvars hown) (List.rel_append hfunctions hown')

/-- Where a body begins, nothing of its own lies on the stacks. -/
theorem opened (h : Stacked strings base frames bodies vars functions) {function : Symbol I}
    {id : ScopedName} (hfunction : function.Means strings id) :
    Stacked strings base (⟨function, vars.length, functions.length⟩ :: frames)
      (⟨id, .empty⟩ :: bodies) vars functions := by
  have hbody : Stacked strings base _ (⟨id, .empty⟩ :: bodies) ([] ++ vars) ([] ++ functions) :=
    .body h hfunction .nil .nil
  exact hbody

/-- What the innermost body owns lies above the heights where it began. -/
theorem innermost {frame : Frame I}
    (h : Stacked strings base (frame :: frames) bodies vars functions) :
    ∃ b outer, bodies = b :: outer ∧ frame.function.Means strings b.function ∧
      List.Forall₂ (Symbol.Means strings) (above frame.varsBase vars) b.scope.vars ∧
      Stacked strings base frames outer (upTo frame.varsBase vars)
        (upTo frame.functionsBase functions) := by
  cases h with
  | @body _ _ outer below below' own own' b h hfunction hvars =>
      rw [above_append, upTo_append, upTo_append]
      exact ⟨b, outer, rfl, hfunction, hvars, h⟩

end Stacked

end Meaning

/-- The table and the scopes hold the same. -/
structure Refines (t : ScopeTable I) (s : Scopes) : Prop where
  stacked : Stacked t.strings s.base t.frames s.bodies t.vars t.functions
  defined : List.Forall₂ (Keyed t.strings) t.defined s.defined

section Steps

variable {t : ScopeTable I} {s : Scopes}

theorem refines_empty : Refines (empty I) .empty := ⟨.top .nil .nil, .nil⟩

namespace Refines

theorem means_qualify (h : Refines t s) (name : String) :
    (t.qualify name).1.Means (t.qualify name).2.strings (s.qualify name) := by
  have hgrows : Grows _ (t.qualify name).2.strings := grows_intern _ _
  refine ⟨hgrows _ _ (keyed_intern t.strings name), ?_⟩
  have hfront : front t.strings t.frames ++ name = (s.qualify name).qualified :=
    h.stacked.front_append name
  rw [← hfront]
  exact keyed_intern _ _

theorem qualify (h : Refines t s) (name : String) : Refines (t.qualify name).2 s := by
  have hgrows : Grows t.strings (t.qualify name).2.strings := fun key s hkey =>
    grows_intern _ _ _ _ (grows_intern _ _ _ _ hkey)
  exact ⟨h.stacked.grows hgrows, h.defined.imp hgrows⟩

theorem bind (h : Refines t s) (name : String) :
    Refines (t.carryOut (.bind name)) (s.carryOut (.bind name)) := by
  rw [Scopes.carryOut_bind]
  exact ⟨(h.qualify name).stacked.grow (.cons (h.means_qualify name) .nil) .nil [],
    (h.qualify name).defined⟩

/-- The table and the scopes refuse the same functions. -/
theorem defined_iff (h : Refines t s) (name : String) :
    (t.qualify name).1.qualified ∈ (t.qualify name).2.defined ↔
      (s.qualify name).qualified ∈ s.defined :=
  List.rel_mem (biUnique_keyed _) (h.means_qualify name).qualified (h.qualify name).defined

theorem enter (h : Refines t s) (name : String) (arity : Nat) :
    Refines (t.carryOut (.enter name arity)) (s.carryOut (.enter name arity)) := by
  obtain ⟨hgiven, -, hsame⟩ | ⟨hfresh, -, hinside⟩ := Scopes.enter_cases s name arity
  · rw [hsame, carryOut, enter?_of_mem ((h.defined_iff name).2 hgiven)]
    exact h.qualify name
  · rw [hinside, carryOut, enter?_of_not_mem (mt (h.defined_iff name).1 hfresh)]
    have hmeans := h.means_qualify name
    have hgrown := (h.qualify name).stacked.grow .nil
      (.cons (⟨hmeans, rfl⟩ : Function.Means _ ⟨_, arity⟩ ⟨_, arity⟩) .nil)
      [(s.qualify name).qualified]
    exact ⟨hgrown.opened hmeans, .cons hmeans.qualified (h.qualify name).defined⟩

theorem exit (h : Refines t s) : Refines (t.carryOut .exit) (s.carryOut .exit) := by
  obtain ⟨strings, vars, functions, frames, defined⟩ := t
  obtain ⟨base, bodies, names⟩ := s
  obtain ⟨hstacked, hdefined⟩ := h
  cases frames with
  | nil =>
      cases hstacked with
      | top hvars hfunctions => exact ⟨.top hvars hfunctions, hdefined⟩
  | cons frame frames =>
      obtain ⟨b, outer, rfl, -, -, houter⟩ := hstacked.innermost
      exact ⟨houter, hdefined⟩

end Refines

theorem refines_after (past : List Scopes.Call) : Refines (after I past) (Scopes.after past) := by
  induction past with
  | nil => exact refines_empty
  | cons c past ih =>
      cases c with
      | bind x => exact ih.bind x
      | enter f arity => exact ih.enter f arity
      | exit => exact ih.exit

end Steps

section Answers

variable {t : ScopeTable I} {s : Scopes} {strings : I.Table}

theorem Symbol.Means.named_eq {symbol : Symbol I} {id : ScopedName}
    (h : symbol.Means t.strings id) : t.named symbol = id := by
  rw [named, I.resolve_of_key? h.name, I.resolve_of_key? h.qualified]

theorem map_named_eq {symbols : List (Symbol I)} {ids : List ScopedName}
    (h : List.Forall₂ (Symbol.Means t.strings) symbols ids) : symbols.map t.named = ids := by
  rw [← List.forall₂_eq_eq_eq, List.forall₂_map_left_iff]
  exact h.imp fun _ _ h => h.named_eq

/-- What is found by the handle of a name is what is found by the name. -/
theorem map_find?_key? {α β : Type} {R : α → β → Prop} {keyOf : α → I.Key} {nameOf : β → String}
    {view : α → β} (hkey : ∀ {a b}, R a b → Keyed strings (keyOf a) (nameOf b))
    (hview : ∀ {a b}, R a b → view a = b) {as : List α} {bs : List β} (h : List.Forall₂ R as bs)
    (x : String) :
    ((I.key? strings x).bind fun key => as.find? (keyOf · = key)).map view =
      bs.find? (nameOf · = x) := by
  -- by a name that was never interned nothing is found, and nothing has this name
  have hfound : ((I.key? strings x).bind fun key => as.find? (keyOf · = key)) =
      as.find? fun a => I.key? strings x = some (keyOf a) := by
    cases I.key? strings x with
    | none => exact (List.find?_eq_none.2 (by simp)).symm
    | some key => simp [eq_comm]
  rw [hfound]
  clear hfound
  induction h with
  | nil => rfl
  | @cons a b as bs hab _ ih =>
      have hiff := (hkey hab).key?_eq_iff x
      by_cases hx : nameOf b = x
      · rw [List.find?_cons_of_pos (by simp [hiff, hx]), List.find?_cons_of_pos (by simp [hx])]
        exact congrArg some (hview hab)
      · rw [List.find?_cons_of_neg (by simp [hiff, hx]), List.find?_cons_of_neg (by simp [hx]), ih]

namespace Refines

theorem findVariable?_eq (h : Refines t s) (x : String) :
    (t.findVariable? x).map t.named = s.findVariable? x :=
  map_find?_key? (fun h => h.name) (fun h => h.named_eq) h.stacked.flatMap_vars x

theorem findFunction?_eq (h : Refines t s) (x : String) :
    (t.findFunction? x).map (fun f => ⟨t.named f.symbol, f.arity⟩) = s.findFunction? x := by
  refine map_find?_key? (fun h => h.symbol.name) (fun h => ?_) h.stacked.flatMap_functions x
  rw [h.symbol.named_eq, h.arity]

theorem frameBindings_eq (h : Refines t s) : t.frameBindings.map t.named = s.frameBindings := by
  obtain ⟨strings, vars, functions, frames, defined⟩ := t
  obtain ⟨base, bodies, names⟩ := s
  refine map_named_eq ?_
  cases frames with
  | nil =>
      cases h.stacked with
      | top hvars =>
          have hall : above 0 vars = vars := List.take_length
          rwa [frameBindings, List.head?_nil, Option.map_none, Option.getD_none, hall]
  | cons frame frames =>
      obtain ⟨b, outer, rfl, -, hvars, -⟩ := h.stacked.innermost
      exact hvars

theorem exit?_eq (h : Refines t s) : t.answers.exit? = s.answers.exit? := by
  obtain ⟨strings, vars, functions, frames, defined⟩ := t
  obtain ⟨base, bodies, names⟩ := s
  cases frames with
  | nil =>
      cases h.stacked with
      | top => rfl
  | cons frame frames =>
      obtain ⟨b, outer, rfl, hfunction, hvars, -⟩ := h.stacked.innermost
      exact congrArg some (Prod.ext hfunction.named_eq (map_named_eq hvars))

theorem bind_eq (h : Refines t s) (x : String) : t.answers.bind x = s.answers.bind x :=
  (h.means_qualify x).named_eq

theorem enter?_eq (h : Refines t s) (f : String) (arity : Nat) :
    t.answers.enter? f arity = s.answers.enter? f arity := by
  obtain ⟨hgiven, hanswer, -⟩ | ⟨hfresh, hanswer, -⟩ := Scopes.enter_cases s f arity
  · rw [hanswer, answers]
    dsimp only
    rw [enter?_of_mem ((h.defined_iff f).2 hgiven)]
    rfl
  · rw [hanswer, answers]
    dsimp only
    rw [enter?_of_not_mem (mt (h.defined_iff f).1 hfresh)]
    exact congrArg some (h.means_qualify f).named_eq

theorem answers_eq (h : Refines t s) : t.answers = s.answers :=
  Scopes.Answers.ext h.stacked.length_eq (funext h.findVariable?_eq) (funext h.findFunction?_eq)
    h.frameBindings_eq (funext h.bind_eq) (funext fun f => funext (h.enter?_eq f)) h.exit?_eq

end Refines

end Answers

end ScopeTable

namespace Interner

/-- Strings in a row, the handle of a string being its place. -/
def byPlace : Interner where
  Table := List String
  Key := Nat
  decEq := inferInstance
  empty := []
  key? strings s := strings.idxOf? s
  intern strings s := match strings.idxOf? s with
    | some place => (place, strings)
    | none => (strings.length, strings ++ [s])
  resolve strings place := strings.getD place ""
  key?_intern strings s s' := by
    cases h : strings.idxOf? s with
    | some place =>
        dsimp only
        split
        · next heq => rw [heq, h]
        · rfl
    | none =>
        dsimp only
        rw [List.idxOf?, List.findIdx?_append]
        split
        · next heq =>
            subst heq
            rw [List.idxOf?] at h
            simp [h]
        · next hne => simp [Ne.symm hne]
  intern_of_key? h := by rw [h]
  resolve_of_key? h := by
    obtain ⟨hplace, hfound, -⟩ := List.findIdx?_eq_some_iff_getElem.1 h
    rw [List.getD_eq_getElem _ _ hplace]
    exact eq_of_beq hfound

end Interner

namespace Scopes

/-- Scopes answer as nested lexical frames do, and so does a table that keeps them on stacks. -/
theorem answer_as_lexical_frames : LexicalFrames told ∧
    ∀ (I : Interner) (past : List Call), (ScopeTable.after I past).answers = told past :=
  ⟨lexicalFrames_told, fun _ past => (ScopeTable.refines_after past).answers_eq⟩

/-- In the body of `f` there is another `x`, and behind it the first one again. -/
theorem shadowed_variable_is_back :
    Inside told [.bind "x"] "f" 1 ⟨"f", "f"⟩ [.bind "y", .bind "x"] ∧
      (ScopeTable.after .byPlace [.bind "y", .bind "x", .enter "f" 1, .bind "x"]).answers.exit? =
        some (⟨"f", "f"⟩, [⟨"y", "f.y"⟩, ⟨"x", "f.x"⟩]) ∧
      (ScopeTable.after .byPlace
        [.exit, .bind "y", .bind "x", .enter "f" 1, .bind "x"]).answers.findVariable? "x" =
          some ⟨"x", "x"⟩ := by
  have hinside : Inside told [.bind "x"] "f" 1 ⟨"f", "f"⟩ [.bind "y", .bind "x"] := by
    refine ⟨by decide, ?_, by decide⟩
    simp only [List.suffix_cons_iff, List.suffix_nil, forall_eq_or_imp, forall_eq]
    decide
  obtain ⟨hframes, htable⟩ := answer_as_lexical_frames
  obtain ⟨-, hvariable, -⟩ := hframes.restored hinside
  refine ⟨hinside, ?_, ?_⟩
  · rw [htable]
    exact (hframes.released hinside).trans (by decide)
  · rw [htable]
    exact (hvariable "x").trans (by decide)

end Scopes

end StackCalc
