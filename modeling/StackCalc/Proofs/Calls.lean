import StackCalc.Proofs.Statements

/-!
# Calls followed

A call binds its arguments, runs the body and leaves it with one value. By induction on the limit
of calls, whatever the limit, calls are followed, and so is a whole program.
-/

namespace StackCalc

open Assembly Source
open Instruction (decode)

theorem Evaluate.giveBack_ne_none {invoke : Invoke} {e : Expr} {span : Span} {a a' : Activation} :
    statement invoke (.giveBack e span) a ≠ .ok none a' := by
  intro hok
  rw [statement, run_get_bind] at hok
  split at hok
  · obtain ⟨_, _, hchecked, -⟩ := run_bind_eq_ok_iff.1 hok
    cases hchecked
  · obtain ⟨value, a₁, -, hvalue⟩ := run_bind_eq_ok_iff.1 hok
    cases hvalue

/-- A body that does not fall through has returned by its end. -/
theorem Evaluate.statements_ne_none {invoke : Invoke} {body : List Stmt} {a a' : Activation}
    (h : Compile.fallsThrough body = false) : statements invoke body a ≠ .ok none a' := by
  induction body generalizing a with
  | nil => cases h
  | cons s ss ih =>
      intro hok
      rw [statements] at hok
      obtain ⟨returned, a₁, hs, hok⟩ := run_bind_eq_ok_iff.1 hok
      cases returned with
      | some value => cases hok
      | none =>
          cases ss with
          | cons s' ss' =>
              have hlast : Compile.fallsThrough (s' :: ss') = false := by
                rw [← h, Compile.fallsThrough, Compile.fallsThrough, List.getLast?_cons_cons]
              exact ih hlast hok
          | nil =>
              -- only a last statement that returns makes `fallsThrough` false
              cases s with
              | define name params body => cases h
              | assign target value => cases h
              | eval value => cases h
              | giveBack value span => exact giveBack_ne_none hs

section

variable {image : Image} {defs : List Definition} {depth : Nat} {invoke : Evaluate.Invoke}
  {m : Machine} {items : List Item} {stop : Nat}

/-- Values on the operand stack go to names, the top one to the first. -/
theorem sets_pass (defs : List Definition) {names : List ScopedName} {values rest : List Number}
    (hlaid : Laid image m.ip (names.map (fun x => .command (.set x.qualified)) ++ items) stop)
    (hcount : values.length = names.length) (hoperands : m.operands = values ++ rest) :
    ∃ passed next, m.Passes image.bytecode (Within image defs m.returns) passed
      ⟨next, rest, m.returns,
        m.bindings.pushAll (((names.map (·.qualified)).map nameHash).zip values).reverse,
        m.printed⟩ ∧ Laid image next items stop ∧ ∀ x ∈ names, image.Knows x.qualified := by
  induction names generalizing m values with
  | nil =>
      obtain rfl : values = [] := List.length_eq_zero_iff.1 hcount
      obtain rfl : m.operands = rest := hoperands
      exact ⟨[], m.ip, .nil m, hlaid, by simp⟩
  | cons x names ih =>
      obtain ⟨value, values, rfl⟩ : ∃ v vs, values = v :: vs := by
        cases values with
        | nil => cases hcount
        | cons v vs => exact ⟨v, vs, rfl⟩
      obtain ⟨next, hnext, hknown, hd, hmove⟩ := hlaid.set hoperands
      obtain ⟨passed, last, hpassed, hlast, hnames⟩ := ih (m := { m with
        ip := next, operands := values ++ rest,
        bindings := m.bindings.push (nameHash x.qualified) value }) hnext (Nat.succ.inj hcount) rfl
      refine ⟨m :: passed, last, ?_, hlast, ?_⟩
      · have hall := (Machine.Passes.single (within_of_decode hd rfl) hmove).append hpassed
        simpa [Bindings.pushAll_append, Bindings.pushAll] using hall
      · intro y hy
        rcases List.mem_cons.1 hy with rfl | hy
        · exact hknown
        · exact hnames y hy

theorem params_pass {scopes : Scopes} {f : Closure} {values rest : List Number}
    {session : Session}
    (hlaid : Laid image m.ip ((Compile.paramSets scopes f.params).map .command ++ items) stop)
    (hentry : Entry image defs f values rest session m) :
    ∃ passed next, m.Passes image.bytecode (Within image defs m.returns) passed
      ⟨next, rest, m.returns, m.bindings.pushAll
        ((((scopes.qualifyAll f.params).map (·.qualified)).map nameHash).zip values), m.printed⟩ ∧
      Laid image next items stop ∧ ∀ x ∈ scopes.qualifyAll f.params, image.Knows x.qualified := by
  have hsets : (Compile.paramSets scopes f.params).map Item.command =
      (scopes.qualifyAll f.params).reverse.map fun x => .command (.set x.qualified) := by
    simp [Compile.paramSets, Scopes.qualifyAll]
  have hcount : values.length = (scopes.qualifyAll f.params).length := by
    rw [hentry.count, Scopes.qualifyAll, List.length_map]
  rw [hsets] at hlaid
  obtain ⟨passed, next, hpassed, hnext, hknown⟩ := sets_pass defs hlaid
    (by simp [hcount]) hentry.operands
  have hzip : ((((scopes.qualifyAll f.params).reverse.map (·.qualified)).map nameHash).zip
      values.reverse).reverse =
      (((scopes.qualifyAll f.params).map (·.qualified)).map nameHash).zip values := by
    rw [List.map_reverse, List.map_reverse, List.zip_eq_zipWith, List.zip_eq_zipWith,
      ← List.reverse_zipWith (by simp [hcount]), List.reverse_reverse]
  rw [hzip] at hpassed
  exact ⟨passed, next, hpassed, hnext, fun x hx => hknown x (List.mem_reverse.2 hx)⟩

theorem Running.of_entry {f : Closure} {values rest : List Number} {session : Session}
    {scopes : Scopes} (next : Nat) (hentry : Entry image defs f values rest session m)
    (hparams : checkParams f.params = .ok ()) (hmatched : Matches scopes (.ofClosure f))
    (hfresh : scopes.frameBindings = [])
    (hfunctions : ∀ g ∈ f.functions, Installed image defs g)
    (hcaptured : ∀ g ∈ f.functions, g.vars ⊆ f.vars)
    (hknown : ∀ x ∈ scopes.qualifyAll f.params, image.Knows x.qualified) :
    Running image defs (scopes.grow (scopes.qualifyAll f.params) [] [])
      (Activation.enter session f values)
      ⟨next, rest, m.returns, m.bindings.pushAll
        ((((scopes.qualifyAll f.params).map (·.qualified)).map nameHash).zip values), m.printed⟩
      m.bindings session.store := by
  have hnames : f.paramNames = scopes.qualifyAll f.params :=
    List.map_congr_left fun p _ => hmatched.qualify p.val
  have hnodup := nodup_of_checkParams hparams
  have hcount : values.length = (scopes.qualifyAll f.params).length := by
    rw [hentry.count, Scopes.qualifyAll, List.length_map]
  have hworld := hentry.world
  rw [Activation.enter_eq session f values hentry.count, hnames]
  refine ⟨⟨?_, ?_, ?_, ?_⟩, hworld.bindingsProper, hworld.storeProper, ⟨_, rfl, ?_⟩,
    ⟨_, rfl, ?_⟩⟩
  · have hnames : ((scopes.qualifyAll f.params).map (·.name)).Nodup := by
      rwa [Scopes.names_qualifyAll]
    have hbound := hmatched.bindAll hnames
    rwa [show (Frame.ofClosure f).own = [] from rfl, List.append_nil] at hbound
  · intro g hg
    rcases List.mem_cons.1 hg with rfl | hg
    · exact hentry.installed
    · exact hfunctions g hg
  · intro g hg
    refine List.Subset.trans ?_ (List.subset_append_right _ f.vars)
    rcases List.mem_cons.1 hg with rfl | hg
    · exact List.Subset.refl _
    · exact hcaptured g hg
  · exact hworld.bindAll hknown (Scopes.nodup_qualifyAll hnodup) hcount rfl rfl
  · rw [List.map_fst_zip (by simp [hcount]), Scopes.frameBindings_grow, hfresh, List.append_nil,
      List.map_map]
    rfl
  · rw [List.map_reverse, List.map_fst_zip (by simp [hcount]), List.map_reverse]

theorem leaving_pass {body : List Stmt} {scopes : Scopes} {a : Activation}
    {bindings : Bindings UInt64 Number} {store : Bindings String Number} {address : Nat}
    {below : List Nat} (hrunning : Running image defs scopes a m bindings store)
    (hlaid : Laid image m.ip ((Compile.leaving body scopes).map .command) stop)
    (hfalls : Compile.fallsThrough body = true) (hreturns : m.returns = address :: below) :
    ∃ passed, m.Passes image.bytecode (Within image defs m.returns) passed
      ⟨address, .zero :: m.operands, below, bindings, m.printed⟩ := by
  rw [Compile.leaving, if_pos hfalls, List.singleton_append, List.map_cons] at hlaid
  obtain ⟨next, hnext, hd, hmove⟩ := hlaid.push
  have hrunning' : Running image defs scopes a
      ⟨next, .zero :: m.operands, m.returns, m.bindings, a.session.printed⟩ bindings store :=
    hrunning.leaves ⟨rfl, rfl⟩
  rw [← hrunning.world.printed] at hrunning'
  obtain ⟨passed, hpassed⟩ := leave_passes hrunning' hnext hreturns
  exact ⟨m :: passed, (Machine.Passes.single (within_of_decode hd rfl) hmove).append hpassed⟩

/-- The body of a call, and how it is left. -/
def Evaluate.body (invoke : Invoke) (f : Closure) (values : List Number) : Eval Number :=
  fun session =>
    match statements invoke f.body (Activation.enter session f values) with
    | .ok returned a => .ok (returned.getD .zero) a.leave
    | .error e a => .error e a.leave

theorem Evaluate.invokeWithin_succ (depth : Nat) (span : Span) (f : Closure)
    (values : List Number) :
    invokeWithin (depth + 1) span f values = body (invokeWithin depth) f values := rfl

theorem body_follows (hcalls : CallsFollow image defs depth invoke) {f : Closure}
    {values rest : List Number} {session : Session} {address : UInt32} {next : Nat}
    {below : List Nat} (hentry : Entry image defs f values rest session m)
    (hlabel : image.labels.lookup f.id.qualified = some address) (hip : m.ip = address.toNat)
    (hreturns : m.returns = next :: below) :
    Follows image.bytecode Session.printed (Within image defs m.returns) depth m
      (fun v s _ m' => s.store = session.store ∧
        m' = ⟨next, v :: rest, below, m.bindings, s.printed⟩)
      (Evaluate.body invoke f values session) := by
  cases hentry.installed with
  | @intro _ scopes last lines address' stop hdef hparams hmatched hfresh hbody hinner hlabel' hlaid
      hinside hfunctions hcaptured =>
      obtain rfl : address' = address := Option.some.inj (hlabel'.symm.trans hlabel)
      rw [Compile.bodyItems, List.append_assoc] at hlaid
      obtain ⟨passed, start, hpassed, hlaidBody, hknown⟩ := params_pass (hip ▸ hlaid) hentry
      rw [Laid.append_iff] at hlaidBody
      obtain ⟨mid, hlaidLines, hlaidLeaving⟩ := hlaidBody
      have hrunning := Running.of_entry start hentry hparams hmatched hfresh hfunctions hcaptured
        hknown
      have hfollows := statements_follow hcalls hrunning (fun _ => hreturns ▸ List.cons_ne_nil _ _)
        hbody hlaidLines (hlaidLeaving.le.trans hinside) (by rwa [Scopes.path_grow])
      refine .prepend hpassed ?_ (Nat.le_add_left _ _)
      unfold Evaluate.body
      cases hresult : Evaluate.statements invoke f.body (Activation.enter session f values) with
      | error e a =>
          rw [hresult] at hfollows
          exact hfollows
      | ok returned a =>
          rw [hresult] at hfollows
          obtain ⟨later, m₂, hlater, hends⟩ := hfollows
          cases returned with
          | some value =>
              obtain ⟨-, ⟨next', below', hcons, rfl⟩, hstore⟩ := hends
              obtain ⟨rfl, rfl⟩ := List.cons.inj (hcons.symm.trans hreturns)
              exact ⟨later, _, hlater, hstore, rfl⟩
          | none =>
              -- nothing has returned, so the code behind the body gives zero and leaves
              have hfalls : Compile.fallsThrough f.body = true := by
                by_contra hfalse
                exact Evaluate.statements_ne_none (Bool.eq_false_iff.2 hfalse) hresult
              have hcompletes : Completes _ _ _ _ _ _ _ _ a later m₂ := hends
              have hreturns₂ : m₂.returns = next :: below := hcompletes.returns.trans hreturns
              obtain ⟨ending, hending⟩ := leaving_pass hcompletes.running
                (hcompletes.ip ▸ hlaidLeaving) hfalls hreturns₂
              rw [hcompletes.returns, hcompletes.operands] at hending
              refine ⟨later ++ ending, _, hlater.append hending, hcompletes.running.leave_store, ?_⟩
              rw [hcompletes.running.world.printed]
              rfl

theorem Entry.calm {f : Closure} {values rest : List Number} {session : Session}
    {address : UInt32} (hentry : Entry image defs f values rest session m)
    (hlabel : image.labels.lookup f.id.qualified = some address)
    (hd : decode image.bytecode m.ip = .ok (.call address)) : Calm image defs m.returns m := by
  refine ⟨⟨List.suffix_rfl, ?_⟩, setAt?_of_decode hd rfl⟩
  intro address' hd'
  cases hd.symm.trans hd'
  exact ⟨f, values, rest, session, hlabel, hentry⟩

theorem Entry.moves {f : Closure} {values rest : List Number} {session : Session}
    {address : UInt32} (hentry : Entry image defs f values rest session m)
    (hlabel : image.labels.lookup f.id.qualified = some address)
    (hd : decode image.bytecode m.ip = .ok (.call address)) :
    m.Moves image.bytecode
      { m with ip := address.toNat, returns := (m.ip + 5) :: m.returns } := by
  cases hentry.installed with
  | intro _ _ _ _ _ _ hlabel' hlaid hinside _ _ =>
      cases hlabel'.symm.trans hlabel
      have hle := hlaid.le.trans hinside
      refine ⟨_, hd, ?_⟩
      simp only [Machine.execute, Machine.jump, if_pos hle]
      rfl

/-- After the call itself, the function runs above the address behind the call. -/
theorem entered_follows (hcalls : CallsFollow image defs depth invoke) {f : Closure}
    {values rest : List Number} {session : Session} {address : UInt32}
    (hentry : Entry image defs f values rest session m)
    (hlabel : image.labels.lookup f.id.qualified = some address) :
    Follows image.bytecode Session.printed (Within image defs ((m.ip + 5) :: m.returns)) depth
      { m with ip := address.toNat, returns := (m.ip + 5) :: m.returns }
      (fun v s _ m' => Leaves session m (m.ip + 5) (v :: rest) s m')
      (Evaluate.body invoke f values session) := by
  have hentered : Entry image defs f values rest session
      { m with ip := address.toNat, returns := (m.ip + 5) :: m.returns } :=
    ⟨hentry.installed, hentry.operands, hentry.count,
      hentry.world.congr rfl rfl hentry.world.printed⟩
  exact (body_follows hcalls hentered hlabel rfl rfl).imp (fun _ hp => hp)
    fun _ _ _ _ _ ⟨hstore, hmachine⟩ => ⟨hstore, hmachine⟩

theorem invokeWithin_follows (image : Image) (defs : List Definition) (depth : Nat) :
    CallsFollow image defs depth (Evaluate.invokeWithin depth) := by
  induction depth with
  | zero =>
      intro span f values rest session m address hentry hlabel hd
      exact ⟨rfl, [], m, .nil m, Nat.le_refl _, hentry.world.printed,
        Instruction.lt_length_of_decode hd⟩
  | succ depth ih =>
      intro span f values rest session m address hentry hlabel hd
      rw [Evaluate.invokeWithin_succ]
      have hcall := Machine.Passes.single (hentry.calm hlabel hd) (hentry.moves hlabel hd)
      have hbody := entered_follows ih hentry hlabel
      refine .prepend hcall (hbody.imp (fun _ hp => hp.calm_of_cons) fun _ _ _ _ _ h => h) ?_
      rw [List.length_singleton]
      omega

end

end StackCalc
