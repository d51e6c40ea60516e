import StackCalc.Proofs.Execution

/-!
# Code that follows evaluation

Code follows an evaluation if the machine gets to what the evaluation gives, and if it gets at
least as far as the limit of calls when the evaluation ends there. The limit is a parameter, so
that one statement tells both what a run computes and, for limits as large as one likes, that it
never faults. Expressions are done by induction on their form, statements by induction on their
number, and calls by induction on the limit.
-/

namespace StackCalc

open Assembly Source
open Instruction (decode)

variable {σ α β : Type}

/-- The machine reaches, by states with a property, what the evaluation gives. Where the
evaluation ends too deep, the machine has printed as much after `depth` moves or more, and is not
at the end of the code. -/
def Follows (code : List UInt8) (printed : σ → Array Number) (P : Machine → Prop) (depth : Nat)
    (m : Machine) (Q : α → σ → List Machine → Machine → Prop) :
    EStateM.Result (Located EvalError) σ α → Prop
  | .ok x s => ∃ passed m', m.Passes code P passed m' ∧ Q x s passed m'
  | .error e s => e.val = .tooDeep ∧ ∃ passed m', m.Passes code P passed m' ∧
      depth ≤ passed.length ∧ m'.printed = printed s ∧ m'.ip < code.length

namespace Follows

variable {code : List UInt8} {printed : σ → Array Number} {P P' : Machine → Prop}
  {depth depth' : Nat} {m m' : Machine} {passed : List Machine}
  {Q Q' : α → σ → List Machine → Machine → Prop} {R : β → σ → List Machine → Machine → Prop}
  {r : EStateM.Result (Located EvalError) σ α}

theorem imp (h : Follows code printed P depth m Q r) (hP : ∀ p, P p → P' p)
    (hQ : ∀ x s passed m', m.Passes code P passed m' → Q x s passed m' → Q' x s passed m') :
    Follows code printed P' depth m Q' r := by
  cases r with
  | ok x s =>
      obtain ⟨passed, m', hpath, hq⟩ := h
      exact ⟨passed, m', hpath.mono hP, hQ x s passed m' hpath hq⟩
  | error e s =>
      obtain ⟨he, passed, m', hpath, hrest⟩ := h
      exact ⟨he, passed, m', hpath.mono hP, hrest⟩

theorem prepend (hpath : m.Passes code P passed m')
    (h : Follows code printed P depth m' (fun x s later m'' => Q x s (passed ++ later) m'') r)
    (hdepth : depth' ≤ passed.length + depth) : Follows code printed P depth' m Q r := by
  cases r with
  | ok x s =>
      obtain ⟨later, m'', hlater, hq⟩ := h
      exact ⟨passed ++ later, m'', hpath.append hlater, hq⟩
  | error e s =>
      obtain ⟨he, later, m'', hlater, hlength, hrest⟩ := h
      refine ⟨he, passed ++ later, m'', hpath.append hlater, ?_, hrest⟩
      rw [List.length_append]
      omega

theorem bind {x : EStateM (Located EvalError) σ α} {f : α → EStateM (Located EvalError) σ β}
    {s : σ} (h : Follows code printed P depth m Q (x s))
    (hf : ∀ v s' passed m', m.Passes code P passed m' → Q v s' passed m' →
      Follows code printed P depth m' (fun w s'' later m'' => R w s'' (passed ++ later) m'')
        (f v s')) : Follows code printed P depth m R ((x >>= f) s) := by
  change Follows code printed P depth m R (EStateM.bind x f s)
  unfold EStateM.bind
  cases hx : x s with
  | ok v s' =>
      rw [hx] at h
      obtain ⟨passed, m', hpath, hq⟩ := h
      exact prepend hpath (hf v s' passed m' hpath hq) (Nat.le_add_left _ _)
  | error e s' =>
      rw [hx] at h
      exact h

theorem pure {v : α} {s : σ} (h : Q v s [] m) :
    Follows code printed P depth m Q ((pure v : EStateM (Located EvalError) σ α) s) :=
  ⟨[], m, .nil m, h⟩

/-- One move after another, and a value is there. -/
theorem pure_single {v : α} {s : σ} (hP : P m) (hmove : m.Moves code m')
    (h : Q v s [m] m') :
    Follows code printed P depth m Q ((Pure.pure v : EStateM (Located EvalError) σ α) s) :=
  ⟨[m], m', .single hP hmove, h⟩

/-- The machine may go on behind a value. -/
theorem extend (h : Follows code printed P depth m Q r)
    (hQ : ∀ x s passed m', m.Passes code P passed m' → Q x s passed m' →
      ∃ later m'', m'.Passes code P later m'' ∧ Q' x s (passed ++ later) m'') :
    Follows code printed P depth m Q' r := by
  cases r with
  | ok x s =>
      obtain ⟨passed, m', hpath, hq⟩ := h
      obtain ⟨later, m'', hlater, hq'⟩ := hQ x s passed m' hpath hq
      exact ⟨passed ++ later, m'', hpath.append hlater, hq'⟩
  | error e s => exact h

theorem discard {x : EStateM (Located EvalError) σ α} {s : σ}
    {Q : σ → List Machine → Machine → Prop}
    (h : Follows code printed P depth m (fun _ s passed m' => Q s passed m') (x s)) :
    Follows code printed P depth m (fun (_ : Unit) s passed m' => Q s passed m')
      ((discard x : EStateM (Located EvalError) σ Unit) s) := by
  change Follows code printed P depth m _ (EStateM.map _ x s)
  unfold EStateM.map
  cases hx : x s with
  | ok v s' =>
      rw [hx] at h
      exact h
  | error e s' =>
      rw [hx] at h
      exact h

end Follows

/-- A frame that sees what the scopes see, in a session that the machine goes along with. -/
structure Sees (image : Image) (defs : List Definition) (scopes : Scopes) (frame : Frame)
    (session : Session) (m : Machine) : Prop where
  matched : Matches scopes frame
  installed : ∀ f ∈ frame.functions, Installed image defs f
  captured : ∀ f ∈ frame.functions, f.vars ⊆ frame.vars
  world : World image frame.vars session m

theorem Sees.congr {image : Image} {defs : List Definition} {scopes : Scopes} {frame : Frame}
    {session session' : Session} {m m' : Machine} (h : Sees image defs scopes frame session m)
    (hstore : session'.store = session.store) (hbindings : m'.bindings = m.bindings)
    (hprinted : m'.printed = session'.printed) : Sees image defs scopes frame session' m' :=
  ⟨h.matched, h.installed, h.captured, h.world.congr hstore hbindings hprinted⟩

/-- From one state to another the machine has taken in the operands and what was printed, and
evaluation has kept the values of variables. -/
structure Leaves (session : Session) (m : Machine) (stop : Nat) (operands : List Number)
    (session' : Session) (m' : Machine) : Prop where
  store : session'.store = session.store
  machine : m' = ⟨stop, operands, m.returns, m.bindings, session'.printed⟩

/-- Calls are followed: the result takes the place of the arguments, and nothing else is left
changed behind the call. -/
def CallsFollow (image : Image) (defs : List Definition) (depth : Nat) (invoke : Evaluate.Invoke) :
    Prop :=
  ∀ span f values rest session m address, Entry image defs f values rest session m →
    image.labels.lookup f.id.qualified = some address →
    decode image.bytecode m.ip = .ok (.call address) →
    Follows image.bytecode Session.printed (Calm image defs m.returns) depth m
      (fun v s _ m' => Leaves session m (m.ip + 5) (v :: rest) s m')
      (invoke span f values session)

section Expressions

variable {image : Image} {defs : List Definition} {depth : Nat} {invoke : Evaluate.Invoke}
  {scopes : Scopes} {frame : Frame} {session session' : Session} {m m' : Machine}

theorem Sees.leaves {stop : Nat} {operands : List Number}
    (h : Sees image defs scopes frame session m)
    (hleaves : Leaves session m stop operands session' m') :
    Sees image defs scopes frame session' m' := by
  obtain ⟨hstore, rfl⟩ := hleaves
  exact h.congr hstore rfl rfl

theorem callee_function {name : Ident} {count : Nat} {f : FunctionEntry}
    (h : Matches scopes frame) (hf : scopes.findFunction? name.val = some f)
    (harity : f.arity = count) :
    ∃ g ∈ frame.functions, g.entry = f ∧
      Evaluate.callee frame name count = .ok (.function g) := by
  rw [← h.findFunction?, Option.map_eq_some_iff] at hf
  obtain ⟨g, hg, rfl⟩ := hf
  refine ⟨g, List.mem_of_find?_eq_some hg, rfl, ?_⟩
  have hcount : count = g.params.length := harity.symm
  simp only [Evaluate.callee, Callee.resolve, Callee.ofName?, hg, if_pos hcount]

theorem callee_print {name : Ident} (h : Matches scopes frame) (hname : name.val = printName)
    (hf : scopes.findFunction? name.val = none) :
    Evaluate.callee frame name 1 = .ok .print := by
  rw [← h.findFunction?, Option.map_eq_none_iff] at hf
  simp only [Evaluate.callee, Callee.resolve, Callee.ofName?, hf, if_pos hname, if_true]

/-- A variable that is live has one value, here and in the machine. -/
theorem World.value_eq (h : World image frame.vars session m) {name : Ident} {x : ScopedName}
    (hx : frame.findVariable? name.val = some x) (hknown : image.Knows x.qualified) :
    ∃ value, Evaluate.value frame name session = .ok value session ∧
      m.bindings.top? (nameHash x.qualified) = some value := by
  have hlive := h.live x (List.mem_of_find?_eq_some hx)
  obtain ⟨value, rest, hstack⟩ := List.exists_cons_of_ne_nil hlive
  refine ⟨value, ?_, ?_⟩
  · have htop : session.store.top? x.qualified = some value := by
      rw [Bindings.top?, hstack, List.head?_cons]
    unfold Evaluate.value
    simp only [hx, Option.bind_some]
    rw [run_get_bind, htop]
    rfl
  · rw [Bindings.top?, h.tied _ hknown, hstack, List.head?_cons]

/-- The code of an expression is followed wherever it lies, in any session that is seen. -/
def ExpressionFollows (image : Image) (defs : List Definition) (depth : Nat)
    (invoke : Evaluate.Invoke) (scopes : Scopes) (frame : Frame) (e : Expr) : Prop :=
  ∀ session m commands stop, Sees image defs scopes frame session m →
    Compile.expression scopes e = .ok commands → Laid image m.ip (commands.map .command) stop →
    Follows image.bytecode Session.printed (Calm image defs m.returns) depth m
      (fun v s _ m' => Leaves session m stop (v :: m.operands) s m')
      (Evaluate.expression invoke frame e session)

theorem arguments_follow {es : List Expr} {commands : List Command} {stop : Nat}
    (hes : ∀ e ∈ es, ExpressionFollows image defs depth invoke scopes frame e)
    (hsees : Sees image defs scopes frame session m)
    (h : Compile.arguments scopes es = .ok commands)
    (hlaid : Laid image m.ip (commands.map .command) stop) :
    Follows image.bytecode Session.printed (Calm image defs m.returns) depth m
      (fun vs s _ m' => vs.length = es.length ∧
        Leaves session m stop (vs.reverse ++ m.operands) s m')
      (Evaluate.arguments invoke frame es session) := by
  induction es generalizing session m commands stop with
  | nil =>
      cases h
      rw [Evaluate.arguments]
      refine .pure ⟨rfl, rfl, ?_⟩
      rw [← hlaid.nil_inv, ← hsees.world.printed]
      rfl
  | cons e es ih =>
      obtain ⟨first, rest, hfirst, hrest, rfl⟩ := Compile.arguments_cons_ok h
      rw [List.map_append, Laid.append_iff] at hlaid
      obtain ⟨mid, hlaidFirst, hlaidRest⟩ := hlaid
      rw [Evaluate.arguments]
      refine (hes e (by simp) session m first mid hsees hfirst hlaidFirst).bind ?_
      rintro v s₁ - m₁ - hleaves₁
      have hsees₁ := hsees.leaves hleaves₁
      obtain ⟨hstore₁, rfl⟩ := hleaves₁
      refine (ih (fun x hx => hes x (by simp [hx])) hsees₁ hrest hlaidRest).bind ?_
      rintro vs s₂ - m₂ - ⟨hlength, hstore₂, rfl⟩
      refine .pure ⟨by simp [hlength], hstore₂.trans hstore₁, ?_⟩
      simp

theorem call_follows (hcalls : CallsFollow image defs depth invoke) {name : Ident}
    {args : List Expr}
    (hes : ∀ e ∈ args, ExpressionFollows image defs depth invoke scopes frame e) :
    ExpressionFollows image defs depth invoke scopes frame (.call name args) := by
  intro session m commands stop hsees h hlaid
  obtain ⟨f, before, hf, harity, hbefore, rfl⟩ := Compile.call_ok h
  obtain ⟨g, hg, rfl, hcallee⟩ := callee_function hsees.matched hf harity
  rw [List.map_append, Laid.append_iff] at hlaid
  obtain ⟨mid, hargs, hcall⟩ := hlaid
  have hevaluate : Evaluate.expression invoke frame (.call name args) =
      Evaluate.arguments invoke frame args >>= invoke name.span g := by
    rw [Evaluate.expression, hcallee]
    rfl
  rw [hevaluate]
  refine (arguments_follow hes hsees hbefore hargs).bind ?_
  rintro vs s₁ - m₁ - ⟨hlength, hleaves₁⟩
  have hsees₁ := hsees.leaves hleaves₁
  obtain ⟨hstore₁, rfl⟩ := hleaves₁
  have hinstalled := hsees.installed g hg
  obtain ⟨address, haddress⟩ : ∃ address, image.labels.lookup g.id.qualified = some address := by
    cases hinstalled with
    | intro _ _ _ _ _ _ hlabel _ _ _ _ => exact ⟨_, hlabel⟩
  obtain ⟨hd, hlast⟩ := hcall.call haddress
  have hentry : Entry image defs g vs m.operands s₁
      ⟨mid, vs.reverse ++ m.operands, m.returns, m.bindings, s₁.printed⟩ :=
    ⟨hinstalled, rfl, hlength.trans harity.symm, hsees₁.world.mono (hsees.captured g hg)⟩
  refine (hcalls name.span g vs m.operands s₁ _ address hentry haddress hd).imp (fun _ hp => hp) ?_
  rintro v s₂ - m₂ - ⟨hstore₂, rfl⟩
  exact ⟨hstore₂.trans hstore₁, by rw [hlast.nil_inv]⟩

theorem expression_follows (hcalls : CallsFollow image defs depth invoke) (e : Expr) :
    ExpressionFollows image defs depth invoke scopes frame e := by
  induction e using Expr.induction_args with
  | number value =>
      intro session m commands stop hsees h hlaid
      cases h
      obtain ⟨next, hnext, hd, hmove⟩ := hlaid.push
      rw [Evaluate.expression]
      refine .pure_single (calm_of_decode hd rfl rfl) hmove ⟨rfl, ?_⟩
      rw [← hnext.nil_inv, hsees.world.printed]
  | var name =>
      intro session m commands stop hsees h hlaid
      obtain ⟨x, hx, rfl⟩ := Compile.variable_ok h
      rw [← hsees.matched.vars] at hx
      obtain ⟨hknown, hget⟩ := hlaid.get
      obtain ⟨value, hvalue, htop⟩ := hsees.world.value_eq hx hknown
      obtain ⟨next, hnext, hd, hmove⟩ := hget value htop
      rw [Evaluate.expression, hvalue]
      refine ⟨[m], _, .single (calm_of_decode hd rfl rfl) hmove, rfl, ?_⟩
      rw [← hnext.nil_inv, hsees.world.printed]
  | binary op lhs rhs ihl ihr =>
      intro session m commands stop hsees h hlaid
      obtain ⟨right, left, hright, hleft, rfl⟩ := Compile.binary_ok h
      rw [List.map_append, List.map_append, Laid.append_iff] at hlaid
      obtain ⟨next, hoperands, hop⟩ := hlaid
      rw [Laid.append_iff] at hoperands
      obtain ⟨mid, hrhs, hlhs⟩ := hoperands
      rw [Evaluate.expression]
      -- the right operand comes first, so that the left one is on top
      refine (ihr session m right mid hsees hright hrhs).bind ?_
      rintro b s₁ - m₁ - hleaves₁
      have hsees₁ := hsees.leaves hleaves₁
      obtain ⟨hstore₁, rfl⟩ := hleaves₁
      refine (ihl s₁ _ left next hsees₁ hleft hlhs).bind ?_
      rintro a s₂ - m₂ - hleaves₂
      obtain ⟨hstore₂, rfl⟩ := hleaves₂
      obtain ⟨last, hlast, hd, hmove⟩ := Laid.arith
        (m := ⟨next, a :: b :: m.operands, m.returns, m.bindings, s₂.printed⟩) hop rfl
      refine .pure_single (calm_of_decode hd rfl rfl) hmove ⟨hstore₂.trans hstore₁, ?_⟩
      rw [← hlast.nil_inv]
  | call callee args ih => exact call_follows hcalls ih

theorem effect_eq_discard {e : Expr} {commands : List Command}
    (hmatched : Matches scopes frame) (h : Compile.expression scopes e = .ok commands) :
    Evaluate.effect invoke frame e = discard (Evaluate.expression invoke frame e) := by
  cases e with
  | call name args =>
      obtain ⟨f, before, hf, harity, -, -⟩ := Compile.call_ok h
      obtain ⟨g, -, -, hcallee⟩ := callee_function hmatched hf harity
      rw [Evaluate.effect, Evaluate.expression, hcallee]
      exact bind_discard
  | _ => rfl

theorem effect_follows (hcalls : CallsFollow image defs depth invoke)
    (hsees : Sees image defs scopes frame session m) {e : Expr} {commands : List Command}
    {stop : Nat} (h : Compile.effect scopes e = .ok commands)
    (hlaid : Laid image m.ip (commands.map .command) stop) :
    Follows image.bytecode Session.printed (Calm image defs m.returns) depth m
      (fun _ s _ m' => Leaves session m stop m.operands s m')
      (Evaluate.effect invoke frame e session) := by
  obtain ⟨name, arg, before, rfl, hname, hnone, harg, rfl⟩ | ⟨before, hbefore, rfl⟩ :=
    Compile.effect_ok h
  · rw [List.map_append, Laid.append_iff] at hlaid
    obtain ⟨mid, hlaidArg, hprint⟩ := hlaid
    have hevaluate : Evaluate.effect invoke frame (.call name [arg]) =
        Evaluate.expression invoke frame arg >>= fun v => Evaluate.print [v] := by
      have hcallee := callee_print hsees.matched hname hnone
      rw [Evaluate.effect, List.length_singleton, hcallee]
      simp [Evaluate.arguments, Evaluate.check]
    rw [hevaluate]
    refine (expression_follows hcalls arg session m before mid hsees harg hlaidArg).bind ?_
    rintro v s₁ - m₁ - ⟨hstore₁, rfl⟩
    obtain ⟨next, hnext, ⟨id, hd⟩, hmove⟩ := Laid.print
      (m := ⟨mid, v :: m.operands, m.returns, m.bindings, s₁.printed⟩) hprint rfl
    refine ⟨_, _, .single (calm_of_decode hd rfl rfl) hmove, hstore₁, ?_⟩
    simp [← hnext.nil_inv]
  · rw [List.map_append, Laid.append_iff] at hlaid
    obtain ⟨mid, hlaidValue, hpop⟩ := hlaid
    rw [effect_eq_discard hsees.matched hbefore]
    refine .discard ((expression_follows hcalls e session m before mid hsees hbefore
      hlaidValue).extend ?_)
    rintro v s₁ - m₁ - ⟨hstore₁, rfl⟩
    obtain ⟨next, hnext, hd, hmove⟩ := Laid.pop
      (m := ⟨mid, v :: m.operands, m.returns, m.bindings, s₁.printed⟩) hpop rfl
    refine ⟨_, _, .single (calm_of_decode hd rfl rfl) hmove, hstore₁, ?_⟩
    rw [← hnext.nil_inv]

end Expressions

end StackCalc
