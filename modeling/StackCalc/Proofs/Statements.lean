import StackCalc.Proofs.Simulation

/-!
# Statements and calls followed

A body that runs has on top of the bindings of its caller those that its scopes know of, on both
sides, and takes exactly these away on every way out. A call leads through the sets of the
parameters and the body to one of these ways.
-/

namespace StackCalc

open Assembly Source
open Instruction (decode)

/-- A body that runs on top of bindings and values that are not its own. -/
structure Running (image : Image) (defs : List Definition) (scopes : Scopes) (a : Activation)
    (m : Machine) (bindings : Bindings UInt64 Number) (store : Bindings String Number) : Prop
    extends Sees image defs scopes a.frame a.session m where
  bindingsBelow : bindings.Proper
  storeBelow : store.Proper
  owned : ∃ xs, m.bindings = bindings.pushAll xs ∧
    xs.map Prod.fst = scopes.frameBindings.map fun x => nameHash x.qualified
  kept : ∃ xs, a.session.store = store.pushAll xs ∧
    xs.map Prod.fst = a.frame.own.map (·.qualified)

/-- Statements have been run to their end, and what they set at the level of the body is what the
names ask for and what is bound now. -/
structure Completes (image : Image) (defs : List Definition) (scopes : Scopes) (stop : Nat)
    (names : List ScopedName) (bindings : Bindings UInt64 Number)
    (store : Bindings String Number) (m : Machine) (a : Activation) (passed : List Machine)
    (m' : Machine) : Prop where
  running : Running image defs scopes a m' bindings store
  ip : m'.ip = stop
  operands : m'.operands = m.operands
  returns : m'.returns = m.returns
  bound : m'.bindings = m.bindings.pushAll
    (passed.filterMap (·.setAt? image.bytecode m.returns)).reverse
  sets : (passed.filterMap (·.setAt? image.bytecode m.returns)).map Prod.fst =
    names.map fun x => nameHash x.qualified

/-- The body has returned a value, and nothing of it is left. -/
structure Returns (scopes : Scopes) (bindings : Bindings UInt64 Number)
    (store : Bindings String Number) (m : Machine) (value : Number) (a : Activation)
    (m' : Machine) : Prop where
  depth : scopes.depth ≠ 0
  machine : ∃ address rest, m.returns = address :: rest ∧
    m' = ⟨address, value :: m.operands, rest, bindings, a.session.printed⟩
  store : a.leave.store = store

/-- How the code of statements may end. -/
def Ends (image : Image) (defs : List Definition) (scopes scopes' : Scopes) (stop : Nat)
    (names : List ScopedName) (bindings : Bindings UInt64 Number)
    (store : Bindings String Number) (m : Machine) :
    Option Number → Activation → List Machine → Machine → Prop
  | none, a, passed, m' => Completes image defs scopes' stop names bindings store m a passed m'
  | some value, a, _, m' => Returns scopes bindings store m value a m'

section Leaving

variable {image : Image} {defs : List Definition} {scopes : Scopes} {m : Machine}
  {bindings : Bindings UInt64 Number} {store : Bindings String Number}

theorem unsets_pass {names : List ScopedName} {xs : List (UInt64 × Number)} {address : Nat}
    {rest : List Nat} {stop : Nat}
    (hlaid : Laid image m.ip
      (names.map (fun x => .command (.unset x.qualified)) ++ [.command .ret]) stop)
    (hbelow : bindings.Proper) (hbindings : m.bindings = bindings.pushAll xs)
    (hxs : xs.map Prod.fst = names.map fun x => nameHash x.qualified)
    (hreturns : m.returns = address :: rest) :
    ∃ passed, m.Passes image.bytecode (Within image defs m.returns) passed
      ⟨address, m.operands, rest, bindings, m.printed⟩ := by
  induction names generalizing m xs with
  | nil =>
      obtain ⟨hd, hmove⟩ := hlaid.ret hreturns
      obtain rfl : xs = [] := List.map_eq_nil_iff.1 hxs
      refine ⟨[m], .single (within_of_decode hd rfl) ?_⟩
      rw [hbindings] at hmove
      exact hmove
  | cons x names ih =>
      obtain ⟨⟨key, value⟩, xs, rfl⟩ : ∃ e xs', xs = e :: xs' := by
        cases xs with
        | nil => cases hxs
        | cons e xs => exact ⟨e, xs, rfl⟩
      rw [List.map_cons, List.map_cons, List.cons.injEq] at hxs
      obtain ⟨rfl, hxs⟩ := hxs
      have hstack : m.bindings.stack (nameHash x.qualified) ≠ [] := by
        rw [hbindings]
        exact Bindings.stack_pushAll_ne_nil (.inr (by simp))
      obtain ⟨next, hnext, hd, hmove⟩ := hlaid.unset hstack
      have hpop : m.bindings.pop (nameHash x.qualified) = bindings.pushAll xs := by
        rw [hbindings, Bindings.pushAll, Bindings.pop_push (hbelow.pushAll xs)]
      obtain ⟨passed, hpassed⟩ := ih (m := { m with
        ip := next, bindings := m.bindings.pop (nameHash x.qualified) }) hnext hpop hxs hreturns
      exact ⟨m :: passed, (Machine.Passes.single (within_of_decode hd rfl) hmove).append hpassed⟩

/-- On its way out a body takes away what it has bound. -/
theorem leave_passes {address : Nat} {rest : List Nat} {stop : Nat} {a : Activation}
    (hrunning : Running image defs scopes a m bindings store)
    (hlaid : Laid image m.ip ((Compile.leave scopes).map .command) stop)
    (hreturns : m.returns = address :: rest) :
    ∃ passed, m.Passes image.bytecode (Within image defs m.returns) passed
      ⟨address, m.operands, rest, bindings, m.printed⟩ := by
  obtain ⟨xs, hbindings, hxs⟩ := hrunning.owned
  rw [Compile.leave, List.map_append, List.map_map] at hlaid
  exact unsets_pass hlaid hrunning.bindingsBelow hbindings hxs hreturns

theorem foldl_pop_eq_popAll (store : Bindings String Number) (xs : List ScopedName) :
    xs.foldl (fun store x => store.pop x.qualified) store =
      store.popAll (xs.map (·.qualified)) := by
  induction xs generalizing store with
  | nil => rfl
  | cons x xs ih =>
      rw [List.foldl_cons, ih]
      rfl

theorem Running.leave_store {a : Activation}
    (h : Running image defs scopes a m bindings store) : a.leave.store = store := by
  obtain ⟨xs, hstore, hxs⟩ := h.kept
  rw [Activation.leave, foldl_pop_eq_popAll, hstore, ← hxs, Bindings.popAll_pushAll h.storeBelow]

end Leaving

namespace Evaluate

variable {invoke : Invoke} {a : Activation}

theorem define_eq {name : Ident} {params : List Ident} {body : List Stmt}
    (hparams : checkParams params = .ok ()) (hfresh : name.val ∉ a.frame.defined) :
    statement invoke (.define name params body) a =
      .ok none { a with frame := a.frame.define name params body } := by
  rw [statement, hparams]
  refine run_bind_eq_ok_iff.2 ⟨(), a, rfl, ?_⟩
  rw [run_get_bind, if_neg hfresh]
  rfl

theorem assign_eq (target : Ident) (e : Expr) :
    statement invoke (.assign target e) = inFrame (fun frame => expression invoke frame e) >>=
      fun value => fun a => .ok none (a.bind target.val value) := rfl

theorem giveBack_eq {e : Expr} {span : Span} (howner : a.frame.owner ≠ none) :
    statement invoke (.giveBack e span) a =
      (inFrame (fun frame => expression invoke frame e) >>= fun value => pure (some value)) a := by
  have hsome : a.frame.owner.isNone = false := by
    rw [Option.isNone_eq_false_iff, Option.isSome_iff_ne_none]
    exact howner
  rw [statement, run_get_bind, hsome]
  rfl

theorem eval_eq (e : Expr) : statement invoke (.eval e) =
    inFrame (fun frame => effect invoke frame e) >>= fun _ => pure none := rfl

end Evaluate

section Statements

variable {image : Image} {defs : List Definition} {depth : Nat} {invoke : Evaluate.Invoke}
  {scopes scopes' : Scopes} {a : Activation} {m : Machine} {bindings : Bindings UInt64 Number}
  {store : Bindings String Number} {lines : List Line} {stop : Nat}

theorem filterMap_of_calm {floor : List Nat} {passed : List Machine}
    (h : ∀ p ∈ passed, Calm image defs floor p) :
    passed.filterMap (·.setAt? image.bytecode floor) = [] := by
  rw [List.filterMap_eq_nil_iff]
  exact fun p hp => (h p hp).calm

theorem Running.leaves {session : Session} {operands : List Number} {m' : Machine}
    (hrunning : Running image defs scopes a m bindings store)
    (hleaves : Leaves a.session m stop operands session m') :
    Running image defs scopes { a with session := session } m' bindings store := by
  have hsees := hrunning.toSees.leaves hleaves
  obtain ⟨hstore, rfl⟩ := hleaves
  obtain ⟨xs, hkept, hxs⟩ := hrunning.kept
  exact ⟨hsees, hrunning.bindingsBelow, hrunning.storeBelow, hrunning.owned,
    xs, hstore.trans hkept, hxs⟩

theorem Running.bind (h : Running image defs scopes a m bindings store) {name : String}
    {value : Number} {m' : Machine} (hknown : image.Knows (scopes.qualify name).qualified)
    (hbindings : m'.bindings =
      m.bindings.push (nameHash (scopes.qualify name).qualified) value)
    (hprinted : m'.printed = m.printed) :
    Running image defs (scopes.grow [scopes.qualify name] [] []) (a.bind name value) m' bindings
      store := by
  obtain ⟨xs, howned, hxs⟩ := h.owned
  obtain ⟨ys, hkept, hys⟩ := h.kept
  rw [h.matched.bind_eq]
  refine ⟨⟨h.matched.bind _, h.installed, ?_, h.world.push hknown value hbindings hprinted⟩,
    h.bindingsBelow, h.storeBelow,
    ⟨(nameHash (scopes.qualify name).qualified, value) :: xs, ?_, ?_⟩,
    ⟨((scopes.qualify name).qualified, value) :: ys, ?_, ?_⟩⟩
  · exact fun f hf => List.Subset.trans (h.captured f hf) (List.subset_cons_self _ _)
  · rw [hbindings, howned]
    rfl
  · rw [Scopes.frameBindings_grow, List.map_cons, hxs]
    rfl
  · rw [hkept]
    rfl
  · rw [List.map_cons, hys]
    rfl

/-- What is evaluated in the frame of a body leaves the body running, and sets nothing. -/
theorem Running.inFrame {α : Type} {act : Frame → Evaluate.Eval α}
    (hrunning : Running image defs scopes a m bindings store) (operands : α → List Number)
    (h : Follows image.bytecode Session.printed (Calm image defs m.returns) depth m
      (fun v s _ m' => Leaves a.session m stop (operands v) s m') (act a.frame a.session)) :
    Follows image.bytecode (·.session.printed) (Within image defs m.returns) depth m
      (fun v a' passed m' => Running image defs scopes a' m' bindings store ∧
        Leaves a.session m stop (operands v) a'.session m' ∧
        passed.filterMap (·.setAt? image.bytecode m.returns) = [])
      (Evaluate.inFrame act a) := by
  unfold Evaluate.inFrame
  cases hx : act a.frame a.session with
  | ok v s =>
      rw [hx] at h
      obtain ⟨passed, m', hpassed, hleaves⟩ := h
      exact ⟨passed, m', hpassed.mono fun _ hp => hp.toWithin, hrunning.leaves hleaves, hleaves,
        filterMap_of_calm hpassed.2⟩
  | error e s =>
      rw [hx] at h
      obtain ⟨he, passed, m', hpassed, hrest⟩ := h
      exact ⟨he, passed, m', hpassed.mono fun _ hp => hp.toWithin, hrest⟩

theorem eval_follows (hcalls : CallsFollow image defs depth invoke)
    (hrunning : Running image defs scopes a m bindings store) {e : Expr}
    (h : Compile.statement scopes (.eval e) = .ok (lines, scopes'))
    (hlaid : Laid image m.ip (Line.items lines) stop) :
    Follows image.bytecode (·.session.printed) (Within image defs m.returns) depth m
      (Ends image defs scopes scopes' stop [] bindings store m)
      (Evaluate.statement invoke (.eval e) a) := by
  obtain ⟨hsame, commands, heffect, hitems⟩ := Compile.eval_ok h
  obtain rfl := hsame.symm
  rw [hitems] at hlaid
  have hfollows := effect_follows hcalls hrunning.toSees heffect hlaid
  rw [Evaluate.eval_eq]
  refine (hrunning.inFrame (fun _ => m.operands) hfollows).bind ?_
  rintro - a₁ passed m₁ - ⟨hrunning₁, ⟨-, rfl⟩, hsets⟩
  refine .pure ⟨hrunning₁, rfl, rfl, rfl, ?_, ?_⟩
  · rw [List.append_nil, hsets]
    rfl
  · rw [List.append_nil, hsets]
    rfl

theorem giveBack_follows (hcalls : CallsFollow image defs depth invoke)
    (hrunning : Running image defs scopes a m bindings store)
    (hreturns : scopes.depth ≠ 0 → m.returns ≠ []) {e : Expr} {span : Span}
    (h : Compile.statement scopes (.giveBack e span) = .ok (lines, scopes'))
    (hlaid : Laid image m.ip (Line.items lines) stop) :
    Follows image.bytecode (·.session.printed) (Within image defs m.returns) depth m
      (Ends image defs scopes scopes' stop [] bindings store m)
      (Evaluate.statement invoke (.giveBack e span) a) := by
  obtain ⟨hdepth, hsame, commands, hvalue, hitems⟩ := Compile.giveBack_ok h
  obtain rfl := hsame.symm
  rw [hitems, List.map_append, Laid.append_iff] at hlaid
  obtain ⟨mid, hlaidValue, hlaidLeave⟩ := hlaid
  have hfollows := expression_follows hcalls e a.session m commands mid hrunning.toSees hvalue
    hlaidValue
  rw [Evaluate.giveBack_eq fun howner => hdepth (hrunning.matched.owner howner)]
  obtain ⟨address, rest, hcons⟩ := List.exists_cons_of_ne_nil (hreturns hdepth)
  refine (hrunning.inFrame (fun v => v :: m.operands) hfollows).bind ?_
  rintro value a₁ passed m₁ - ⟨hrunning₁, ⟨-, rfl⟩, -⟩
  obtain ⟨later, hlater⟩ := leave_passes hrunning₁ hlaidLeave hcons
  exact ⟨later, _, hlater, hdepth, ⟨address, rest, hcons, rfl⟩, hrunning₁.leave_store⟩

theorem assign_follows (hcalls : CallsFollow image defs depth invoke)
    (hrunning : Running image defs scopes a m bindings store) {target : Ident} {e : Expr}
    (h : Compile.statement scopes (.assign target e) = .ok (lines, scopes'))
    (hlaid : Laid image m.ip (Line.items lines) stop) :
    Follows image.bytecode (·.session.printed) (Within image defs m.returns) depth m
      (Ends image defs scopes scopes' stop [qualifiedBy scopes.path target.val] bindings store m)
      (Evaluate.statement invoke (.assign target e) a) := by
  obtain ⟨commands, hvalue, hitems, rfl⟩ := Compile.assign_ok h
  rw [hitems, Laid.append_iff] at hlaid
  obtain ⟨mid, hlaidValue, hlaidSet⟩ := hlaid
  have hfollows := expression_follows hcalls e a.session m commands mid hrunning.toSees hvalue
    hlaidValue
  rw [Evaluate.assign_eq]
  refine (hrunning.inFrame (fun v => v :: m.operands) hfollows).bind ?_
  rintro value a₁ passed m₁ - ⟨hrunning₁, ⟨-, rfl⟩, hsets⟩
  obtain ⟨next, hnext, hknown, hd, hmove⟩ := Laid.set
    (m := ⟨mid, value :: m.operands, m.returns, m.bindings, a₁.session.printed⟩) hlaidSet rfl
  have hset : (⟨mid, value :: m.operands, m.returns, m.bindings, a₁.session.printed⟩ :
      Machine).setAt? image.bytecode m.returns =
      some (nameHash (scopes.qualify target.val).qualified, value) := by
    simp only [Machine.setAt?, if_true, hd]
  refine ⟨_, _, .single (within_of_decode hd rfl) hmove, hrunning₁.bind hknown rfl rfl,
    hnext.nil_inv, rfl, rfl, ?_, ?_⟩
  · rw [List.filterMap_append, hsets, List.filterMap_cons_some hset]
    rfl
  · rw [List.filterMap_append, hsets, List.filterMap_cons_some hset]
    rfl

/-- A function that has been compiled here is installed with what is visible here. -/
theorem Running.installs (hrunning : Running image defs scopes a m bindings store) {name : Ident}
    {params : List Ident} {body : List Stmt} {last : Scopes} {address : UInt32}
    (hparams : checkParams params = .ok ())
    (hbody : Compile.statements (Compile.bodyScopes scopes (scopes.qualify name.val) params) body =
      .ok (lines, last))
    (hlabel : image.labels.lookup (scopes.qualify name.val).qualified = some address)
    (hlaid : Laid image address.toNat (Compile.bodyItems (Compile.paramSets
      (scopes.inside (scopes.qualify name.val) params.length) params) lines body last) stop)
    (hstop : stop ≤ image.bytecode.length)
    (hdefs : Stmt.definitions scopes.path (.define name params body) ⊆ defs) :
    Installed image defs
      ⟨a.frame.qualify name.val, params, body, a.frame.vars, a.frame.functions⟩ := by
  rw [Stmt.definitions, List.cons_subset, ← Scopes.qualify_eq] at hdefs
  have hqualify := hrunning.matched.qualify name.val
  have hpath : (scopes.inside (scopes.qualify name.val) params.length).path =
      scopes.path ++ [name.val] := Scopes.path_inside _ _ _
  refine .intro ?_ hparams (hrunning.matched.inside name params body) rfl hbody ?_ ?_ hlaid hstop
    hrunning.installed hrunning.captured
  · rw [hqualify]
    exact hdefs.1
  · rw [hpath]
    exact hdefs.2
  · rw [hqualify]
    exact hlabel

theorem Running.define (hrunning : Running image defs scopes a m bindings store) {name : Ident}
    {params : List Ident} {body : List Stmt} {names : List String}
    (hinstalled : Installed image defs
      ⟨a.frame.qualify name.val, params, body, a.frame.vars, a.frame.functions⟩)
    (hname : (scopes.qualify name.val).qualified ∈ names) (ip : Nat) :
    Running image defs (scopes.grow [] [⟨scopes.qualify name.val, params.length⟩] names)
      { a with frame := a.frame.define name params body } { m with ip := ip } bindings store := by
  obtain ⟨xs, howned, hxs⟩ := hrunning.owned
  refine ⟨⟨hrunning.matched.define name params body hname, ?_, ?_, ?_⟩, hrunning.bindingsBelow,
    hrunning.storeBelow, ⟨xs, howned, ?_⟩, hrunning.kept⟩
  · intro f hf
    rcases List.mem_cons.1 hf with rfl | hf
    · exact hinstalled
    · exact hrunning.installed f hf
  · intro f hf
    rcases List.mem_cons.1 hf with rfl | hf
    · exact List.Subset.refl _
    · exact hrunning.captured f hf
  · exact hrunning.world.congr rfl rfl hrunning.world.printed
  · rw [Scopes.frameBindings_grow, List.nil_append]
    exact hxs

/-- A definition jumps over the code of the function, which is installed from then on. -/
theorem define_follows (hrunning : Running image defs scopes a m bindings store) {name : Ident}
    {params : List Ident} {body : List Stmt}
    (h : Compile.statement scopes (.define name params body) = .ok (lines, scopes'))
    (hlaid : Laid image m.ip (Line.items lines) stop) (hstop : stop ≤ image.bytecode.length)
    (hdefs : Stmt.definitions scopes.path (.define name params body) ⊆ defs) :
    Follows image.bytecode (·.session.printed) (Within image defs m.returns) depth m
      (Ends image defs scopes scopes' stop [] bindings store m)
      (Evaluate.statement invoke (.define name params body) a) := by
  obtain ⟨bodyLines, last, hparams, hfresh, hbody, hitems, rfl⟩ := Compile.define_ok h
  rw [Compile.exit_of_growsBy (Compile.growsBy_of_statements hbody)]
  have hunseen : name.val ∉ a.frame.defined :=
    fun hmem => hfresh (hrunning.matched.defined name.val hmem)
  rw [Evaluate.define_eq hparams hunseen]
  rw [hitems, Laid.append_iff] at hlaid
  obtain ⟨behind, hfront, hend⟩ := hlaid
  obtain ⟨endAddress, hendLabel, hendAddress, hnil⟩ := hend.label_inv
  obtain ⟨i, -, -, hinside⟩ := hfront.command_inv
  obtain ⟨address, hlabel, haddress, hlaidBody⟩ := hinside.label_inv
  have hbehind : behind ≤ image.bytecode.length := hnil.nil_inv ▸ hstop
  rw [← haddress] at hlaidBody
  obtain ⟨hd, hmove⟩ := hfront.jump hendLabel (hendAddress ▸ hbehind)
  -- the body is not run here: where it lies is noted for the calls to come
  have hinstalled := hrunning.installs hparams hbody hlabel hlaidBody hbehind hdefs
  have hset : m.setAt? image.bytecode m.returns = none := setAt?_of_decode hd rfl
  refine ⟨[m], _, .single (within_of_decode hd rfl) hmove,
    hrunning.define hinstalled ?_ _, hendAddress.trans hnil.nil_inv, rfl, rfl, ?_, ?_⟩
  · simp [Stmt.definitions, Scopes.qualify_eq]
  · rw [List.filterMap_cons_none hset]
    rfl
  · rw [List.filterMap_cons_none hset]
    rfl

theorem statement_follows (hcalls : CallsFollow image defs depth invoke)
    (hrunning : Running image defs scopes a m bindings store)
    (hreturns : scopes.depth ≠ 0 → m.returns ≠ []) {s : Stmt}
    (h : Compile.statement scopes s = .ok (lines, scopes'))
    (hlaid : Laid image m.ip (Line.items lines) stop) (hstop : stop ≤ image.bytecode.length)
    (hdefs : s.definitions scopes.path ⊆ defs) :
    Follows image.bytecode (·.session.printed) (Within image defs m.returns) depth m
      (Ends image defs scopes scopes' stop (assigned scopes.path [s]) bindings store m)
      (Evaluate.statement invoke s a) := by
  cases s with
  | define name params body => exact define_follows hrunning h hlaid hstop hdefs
  | assign target value => exact assign_follows hcalls hrunning h hlaid
  | giveBack value span => exact giveBack_follows hcalls hrunning hreturns h hlaid
  | eval value => exact eval_follows hcalls hrunning h hlaid

/-- Statements that are completed make way for more. -/
theorem Completes.then {mid : Scopes} {middle : Nat} {names names' : List ScopedName}
    {a₁ a₂ : Activation} {m₁ m₂ : Machine} {passed later : List Machine} {r : Option Number}
    (h : Completes image defs mid middle names bindings store m a₁ passed m₁)
    (hdepth : mid.depth = scopes.depth)
    (hrest : Ends image defs mid scopes' stop names' bindings store m₁ r a₂ later m₂) :
    Ends image defs scopes scopes' stop (names ++ names') bindings store m r a₂ (passed ++ later)
      m₂ := by
  cases r with
  | some value =>
      obtain ⟨hmid, ⟨address, rest, hcons, hm₂⟩, hstore⟩ := hrest
      refine ⟨hdepth ▸ hmid, ⟨address, rest, h.returns ▸ hcons, ?_⟩, hstore⟩
      rw [hm₂, h.operands]
  | none =>
      obtain ⟨hrunning, hip, hoperands, hreturns, hbound, hsets⟩ := hrest
      rw [h.returns] at hbound hsets
      refine ⟨hrunning, hip, hoperands.trans h.operands, hreturns.trans h.returns, ?_, ?_⟩
      · rw [hbound, h.bound, ← Bindings.pushAll_append, ← List.reverse_append,
          ← List.filterMap_append]
      · rw [List.filterMap_append, List.map_append, h.sets, hsets, List.map_append]

theorem statements_follow (hcalls : CallsFollow image defs depth invoke)
    (hrunning : Running image defs scopes a m bindings store)
    (hreturns : scopes.depth ≠ 0 → m.returns ≠ []) {ss : List Stmt}
    (h : Compile.statements scopes ss = .ok (lines, scopes'))
    (hlaid : Laid image m.ip (Line.items lines) stop) (hstop : stop ≤ image.bytecode.length)
    (hdefs : Stmt.definitionsOfAll scopes.path ss ⊆ defs) :
    Follows image.bytecode (·.session.printed) (Within image defs m.returns) depth m
      (Ends image defs scopes scopes' stop (assigned scopes.path ss) bindings store m)
      (Evaluate.statements invoke ss a) := by
  induction ss generalizing scopes a m lines with
  | nil =>
      cases h
      rw [Evaluate.statements]
      exact .pure ⟨hrunning, hlaid.nil_inv, rfl, rfl, rfl, rfl⟩
  | cons s ss ih =>
      obtain ⟨first, mid, rest, hfirst, hrest, rfl⟩ := Compile.statements_cons_ok h
      rw [Line.items_append, Laid.append_iff] at hlaid
      obtain ⟨middle, hlaidFirst, hlaidRest⟩ := hlaid
      obtain ⟨hdefsFirst, hdefsRest⟩ := List.append_subset.1 hdefs
      obtain ⟨functions, hmid⟩ := Compile.growsBy_of_statement hfirst
      have hdepth : mid.depth = scopes.depth := by rw [hmid, Scopes.depth_grow]
      have hpath : mid.path = scopes.path := by rw [hmid, Scopes.path_grow]
      have hnames : assigned scopes.path (s :: ss) =
          assigned scopes.path [s] ++ assigned scopes.path ss := by
        rw [assigned, assigned, assigned, ← List.filterMap_append, List.singleton_append]
      rw [Evaluate.statements, hnames]
      refine (statement_follows hcalls hrunning hreturns hfirst hlaidFirst
        (hlaidRest.le.trans hstop) hdefsFirst).bind ?_
      rintro (_ | value) a₁ passed m₁ - hends
      · have hcompletes : Completes image defs mid middle _ bindings store m a₁ passed m₁ := hends
        have hlater := ih hcompletes.running (hdepth ▸ hcompletes.returns ▸ hreturns) hrest
          (hcompletes.ip ▸ hlaidRest) (hpath ▸ hdefsRest)
        rw [hcompletes.returns, hpath] at hlater
        exact hlater.imp (fun _ hp => hp) fun r a₂ later m₂ _ hends₂ =>
          hcompletes.then hdepth hends₂
      · exact .pure hends

end Statements

end StackCalc
