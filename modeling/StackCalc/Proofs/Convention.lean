import StackCalc.Proofs.Correctness

/-!
# The calling convention

A call that comes back has put one value in the place of its arguments, and has left both stacks
and all bindings otherwise as they were. Which function is called can be told from the address
alone, since every function begins behind a jump of its own. At the end of a program nothing is
left but what it has assigned outside of functions.
-/

namespace StackCalc

open Assembly Source
open Instruction (decode)

section Entrances

variable {image : Image} {scopes scopes' : Scopes} {start stop : Nat}

theorem jump_before_entry {ss : List Stmt} {lines : List Line}
    (h : Compile.statements scopes ss = .ok (lines, scopes')) {d : Definition}
    (hd : d ∈ Stmt.definitionsOfAll scopes.path ss) :
    [.command (.jump (Compile.endLabel d.id)), .label d.id.qualified] <:+: Line.items lines := by
  induction ss using Stmt.induction_all generalizing scopes scopes' lines with
  | nil => cases hd
  | define name params body ss ihbody ih =>
      obtain ⟨first, mid, rest, hfirst, hrest, rfl⟩ := Compile.statements_cons_ok h
      have hpath := Compile.path_of_statement hfirst
      obtain ⟨bodyLines, last, -, -, hbody, hitems, rfl⟩ := Compile.define_ok hfirst
      rw [Line.items_append]
      rw [Stmt.definitionsOfAll, Stmt.definitions, List.cons_append, List.mem_cons,
        List.mem_append] at hd
      rcases hd with rfl | hd | hd
      · rw [hitems, ← Scopes.qualify_eq]
        exact ⟨[], _, by simp only [List.nil_append, List.append_assoc]; rfl⟩
      · have hinner := ihbody hbody (by rwa [Compile.path_bodyScopes])
        refine (hinner.trans ?_).trans (List.prefix_append _ _).isInfix
        rw [hitems, Compile.bodyItems]
        exact ⟨_ ++ _, _ ++ _, by simp only [List.append_assoc]; rfl⟩
      · exact (ih hrest (hpath ▸ hd)).trans (List.suffix_append _ _).isInfix
  | assign target value ss ih =>
      obtain ⟨first, mid, rest, hfirst, hrest, rfl⟩ := Compile.statements_cons_ok h
      obtain ⟨-, -, -, rfl⟩ := Compile.assign_ok hfirst
      rw [Line.items_append]
      exact (ih hrest (by rwa [Scopes.path_grow])).trans (List.suffix_append _ _).isInfix
  | giveBack value span ss ih =>
      obtain ⟨first, mid, rest, hfirst, hrest, rfl⟩ := Compile.statements_cons_ok h
      obtain ⟨-, rfl, -⟩ := Compile.giveBack_ok hfirst
      rw [Line.items_append]
      exact (ih hrest hd).trans (List.suffix_append _ _).isInfix
  | eval value ss ih =>
      obtain ⟨first, mid, rest, hfirst, hrest, rfl⟩ := Compile.statements_cons_ok h
      obtain ⟨rfl, -⟩ := Compile.eval_ok hfirst
      rw [Line.items_append]
      exact (ih hrest hd).trans (List.suffix_append _ _).isInfix

theorem address_lt {before between after : List Item} {first second : String} {c : Command}
    {address address' : UInt32}
    (h : Laid image start
      (before ++ .label first :: (between ++ .command c :: .label second :: after)) stop)
    (hfirst : image.labels.lookup first = some address)
    (hsecond : image.labels.lookup second = some address') : address.toNat < address'.toNat := by
  obtain ⟨here, -, h⟩ := Laid.append_iff.1 h
  obtain ⟨a, ha, hhere, h⟩ := h.label_inv
  obtain ⟨there, hbetween, h⟩ := Laid.append_iff.1 h
  obtain ⟨i, -, -, h⟩ := h.command_inv
  obtain ⟨a', ha', hthere, -⟩ := h.label_inv
  cases ha.symm.trans hfirst
  cases ha'.symm.trans hsecond
  have hle := hbetween.le
  have hpos := i.encodedLength_pos
  omega

theorem label_later {before after after' : List Item} {first second : String} {c c' : Command}
    (h : Item.command c :: .label first :: after =
      before ++ .command c' :: .label second :: after') (hne : first ≠ second) :
    ∃ between, after = between ++ .command c' :: .label second :: after' := by
  match before, h with
  | [], h =>
      injection h with _ h
      injection h with h _
      injection h with h
      exact absurd h hne
  | [_], h =>
      injection h with _ h
      injection h with h _
      cases h
  | _ :: _ :: between, h =>
      injection h with _ h
      injection h with _ h
      exact ⟨between, h⟩

theorem name_eq_of_address {items : List Item} {d e : Definition} {address : UInt32}
    (h : Laid image start items stop)
    (hd : [.command (.jump (Compile.endLabel d.id)), .label d.id.qualified] <:+: items)
    (he : [.command (.jump (Compile.endLabel e.id)), .label e.id.qualified] <:+: items)
    (hdLabel : image.labels.lookup d.id.qualified = some address)
    (heLabel : image.labels.lookup e.id.qualified = some address) :
    d.id.qualified = e.id.qualified := by
  by_contra hne
  -- of two entries one comes later, and its own jump lies between
  obtain ⟨before, after, rfl⟩ := hd
  obtain ⟨before', after', heq⟩ := he
  simp only [List.append_assoc, List.cons_append, List.nil_append] at h heq
  rcases List.append_eq_append_iff.1 heq with ⟨mid, rfl, hmid⟩ | ⟨mid, rfl, hmid⟩
  · obtain ⟨between, rfl⟩ := label_later hmid (Ne.symm hne)
    rw [← heq, List.append_cons] at h
    exact absurd (address_lt h heLabel hdLabel) (Nat.lt_irrefl _)
  · obtain ⟨between, rfl⟩ := label_later hmid hne
    rw [List.append_cons] at h
    exact absurd (address_lt h hdLabel heLabel) (Nat.lt_irrefl _)

end Entrances

/-- A number of steps later a state is the first to have as many return addresses again. -/
structure Machine.ComesBack (code : List UInt8) (m : Machine) (t : Nat) : Prop where
  pos : 0 < t
  depth : (after code t m).returns.length = m.returns.length
  first : ∀ s < t, 0 < s → (after code s m).returns.length ≠ m.returns.length

instance (code : List UInt8) (m : Machine) (t : Nat) : Decidable (m.ComesBack code t) :=
  decidable_of_iff
    (0 < t ∧ (Machine.after code t m).returns.length = m.returns.length ∧
      ∀ s < t, 0 < s → (Machine.after code s m).returns.length ≠ m.returns.length)
    ⟨fun ⟨hpos, hdepth, hfirst⟩ => ⟨hpos, hdepth, hfirst⟩,
      fun ⟨hpos, hdepth, hfirst⟩ => ⟨hpos, hdepth, hfirst⟩⟩

section Calls

variable {image : Image} {defs : List Definition} {m : Machine}

theorem Entry.comes_back {f : Closure} {values rest : List Number} {session : Session}
    {address : UInt32} {t : Nat} (hentry : Entry image defs f values rest session m)
    (hlabel : image.labels.lookup f.id.qualified = some address)
    (hd : decode image.bytecode m.ip = .ok (.call address))
    (hback : m.ComesBack image.bytecode t) :
    ∃ value printed, Machine.after image.bytecode t m =
      ⟨m.ip + 5, value :: rest, m.returns, m.bindings, printed⟩ := by
  obtain ⟨t, rfl⟩ := Nat.exists_eq_add_of_lt hback.pos
  rw [Nat.zero_add] at hback ⊢
  have hstep := (hentry.moves hlabel hd).step
  have hafter (s : Nat) : Machine.after image.bytecode (s + 1) m =
      Machine.after image.bytecode s
        { m with ip := address.toNat, returns := (m.ip + 5) :: m.returns } := by
    rw [Machine.after, hstep]
  have hfollows := entered_follows (invokeWithin_follows image defs (t + 1)) hentry hlabel
  -- inside the call its return address stays on the stack, so what came back is not inside
  have habove : ∀ passed m', Machine.Passes image.bytecode
      (Within image defs ((m.ip + 5) :: m.returns))
      { m with ip := address.toNat, returns := (m.ip + 5) :: m.returns } passed m' →
      passed.length ≤ t := by
    intro passed m' hpassed
    by_contra hlt
    have hmem : Machine.after image.bytecode (t + 1) m ∈ passed := by
      rw [hafter, hpassed.1.after.1]
      exact Machine.after_mem_states (Nat.lt_of_not_le hlt) _
    have hlength := (hpassed.2 _ hmem).above.length_le
    rw [hback.depth, List.length_cons] at hlength
    omega
  cases hresult : Evaluate.body (Evaluate.invokeWithin (t + 1)) f values session with
  | error e s =>
      rw [hresult] at hfollows
      obtain ⟨-, passed, m', hpassed, hlength, -⟩ := hfollows
      have := habove passed m' hpassed
      omega
  | ok v s =>
      rw [hresult] at hfollows
      obtain ⟨passed, m', hpassed, -, rfl⟩ := hfollows
      have hle := habove passed _ hpassed
      have hend := hafter passed.length
      rw [hpassed.1.after.2] at hend
      rcases Nat.eq_or_lt_of_le hle with heq | hlt
      · rw [← heq, hend]
        exact ⟨v, s.printed, rfl⟩
      · refine absurd ?_ (hback.first (passed.length + 1) (by omega) (Nat.succ_pos _))
        rw [hend]

end Calls

/-- Of one state and the one that a call there has come back to, for a function of an arity. -/
structure Machine.CameBack (arity : Nat) (m m' : Machine) : Prop where
  ip : m'.ip = m.ip + 5
  enough : arity ≤ m.operands.length
  operands : ∃ value, m'.operands = value :: m.operands.drop arity
  returns : m'.returns = m.returns
  bindings : m'.bindings = m.bindings

/-- The variables that a program assigns to outside of its functions, once for each time. -/
def Source.Program.targets (program : Program) : List String :=
  program.filterMap fun
    | .assign target _ => some target.val
    | _ => none

/-- What the machine has set in its first steps while no call was open, in order. -/
def Machine.topSets (code : List UInt8) (n : Nat) : List (UInt64 × Number) :=
  (states code n .initial).filterMap (·.setAt? code [])

namespace Source

theorem qualified_assigned (ss : List Stmt) :
    (assigned [] ss).map (·.qualified) = Program.targets ss := by
  induction ss with
  | nil => rfl
  | cons s ss ih =>
      unfold assigned Program.targets at ih ⊢
      cases s with
      | assign target value => simpa [qualifiedBy] using ih
      | define name params body | giveBack value span | eval value => exact ih

end Source

theorem set_of_assigned {scopes scopes' : Scopes} {ss : List Stmt} {lines : List Line}
    (h : Compile.statements scopes ss = .ok (lines, scopes')) {x : ScopedName}
    (hx : x ∈ assigned scopes.path ss) : .command (.set x.qualified) ∈ Line.items lines := by
  induction ss generalizing scopes lines with
  | nil => cases hx
  | cons s ss ih =>
      obtain ⟨first, mid, rest, hfirst, hrest, rfl⟩ := Compile.statements_cons_ok h
      have hpath := Compile.path_of_statement hfirst
      have hlater (hx : x ∈ assigned scopes.path ss) :
          .command (.set x.qualified) ∈ Line.items (first ++ rest) := by
        rw [Line.items_append]
        exact List.mem_append_right _ (ih hrest (hpath ▸ hx))
      cases s with
      | define name params body | giveBack value span | eval value => exact hlater hx
      | assign target value =>
          rcases List.mem_cons.1 hx with rfl | hx
          · obtain ⟨commands, -, hitems, -⟩ := Compile.assign_ok hfirst
            rw [Line.items_append, hitems]
            exact List.mem_append_left _ (List.mem_append_right _ (List.mem_singleton.2 rfl))
          · exact hlater hx

namespace Source.Program

variable {program : Program} {image : Image} {printed : Array Number} {passed : List Machine}
  {m : Machine}

theorem Ended.stacks (h : program.Ended image printed passed m)
    (hknows : ∀ x ∈ program.targets, image.Knows x) :
    ∃ values, values.length = program.targets.length ∧
      passed.filterMap (·.setAt? image.bytecode []) =
        (program.targets.map nameHash).zip values ∧
      (∀ x ∈ program.targets, m.bindings.stack (nameHash x) =
        (((program.targets.zip values).filter (·.1 = x)).map (·.2)).reverse) ∧
      ∀ hash, hash ∉ program.targets.map nameHash → m.bindings.stack hash = [] := by
  have hsets := h.sets
  have hbound := h.bound
  generalize passed.filterMap (·.setAt? image.bytecode []) = sets at hsets hbound ⊢
  have hnames : (assigned [] program).map (fun x => nameHash x.qualified) =
      program.targets.map nameHash := by
    rw [← qualified_assigned, List.map_map]
    rfl
  rw [hnames] at hsets
  have hzip : sets = (program.targets.map nameHash).zip (sets.map Prod.snd) := by
    rw [← hsets]
    exact List.zip_of_prod rfl rfl
  have hstack (hash : UInt64) : m.bindings.stack hash =
      ((sets.filter (·.1 = hash)).map Prod.snd).reverse := by
    rw [hbound, Bindings.stack_pushAll, Bindings.stack_empty, List.append_nil,
      List.filter_reverse, List.map_reverse]
  refine ⟨sets.map Prod.snd, ?_, hzip, ?_, ?_⟩
  · have hlength := congrArg List.length hsets
    simpa using hlength
  · intro x hx
    have hfilter := World.filter_zip_hash (hknows x hx) hknows (sets.map Prod.snd)
    rw [← hzip] at hfilter
    rw [hstack, hfilter]
  · intro hash hhash
    have hnone : sets.filter (·.1 = hash) = [] := by
      rw [List.filter_eq_nil_iff]
      intro e he heq
      rw [← hsets] at hhash
      exact hhash (List.mem_map.2 ⟨e, he, of_decide_eq_true heq⟩)
    rw [hstack, hnone]
    rfl

end Source.Program

namespace Source.Program.Builds

variable {program : Program} {image : Image}

theorem callee_of_label (h : program.Builds image) {d e : Definition} {address : UInt32}
    (hd : d ∈ program.definitions) (he : e ∈ program.definitions)
    (hdLabel : image.labels.lookup d.id.qualified = some address)
    (heLabel : image.labels.lookup e.id.qualified = some address) : d = e := by
  obtain ⟨lines, last, hlines, hlaid⟩ := h.laid
  have hname := name_eq_of_address hlaid (jump_before_entry hlines hd)
    (jump_before_entry hlines he) hdLabel heLabel
  exact List.inj_on_of_nodup_map (nodup_names hlines) hd he hname

theorem call_comes_back (h : program.Builds image) {k : Nat} {address : UInt32}
    (hcall : decode image.bytecode (Machine.after image.bytecode k .initial).ip =
      .ok (.call address)) :
    ∃ d ∈ program.definitions, image.labels.lookup d.id.qualified = some address ∧
      ∀ t, (Machine.after image.bytecode k .initial).ComesBack image.bytecode t →
        (Machine.after image.bytecode k .initial).CameBack d.params.length
          (Machine.after image.bytecode (k + t) .initial) := by
  have hlt := Instruction.lt_length_of_decode hcall
  rcases h.reached k with ⟨hwithin, -⟩ | hend
  · obtain ⟨f, values, rest, session, hlabel, hentry⟩ := hwithin.callable address hcall
    cases hentry.installed with
    | intro hknown _ _ _ _ _ _ _ _ _ _ =>
        refine ⟨_, hknown, hlabel, ?_⟩
        intro t hback
        obtain ⟨value, printed, hafter⟩ := hentry.comes_back hlabel hcall hback
        have hcount : values.reverse.length = f.params.length := by
          rw [List.length_reverse, hentry.count]
        rw [Machine.after_add, hafter]
        refine ⟨rfl, ?_, ⟨value, ?_⟩, rfl, rfl⟩
        · rw [hentry.operands, List.length_append, hcount]
          exact Nat.le_add_right _ _
        · rw [hentry.operands, ← hcount, List.drop_left]
  · omega

theorem knows_target (h : program.Builds image) {x : String} (hx : x ∈ program.targets) :
    image.Knows x := by
  obtain ⟨lines, last, hlines, hlaid⟩ := h.laid
  rw [← qualified_assigned] at hx
  obtain ⟨y, hy, rfl⟩ := List.mem_map.1 hx
  obtain ⟨before, after, hitems⟩ := List.append_of_mem (set_of_assigned hlines hy)
  rw [hitems, Laid.append_iff] at hlaid
  obtain ⟨mid, -, hset⟩ := hlaid
  obtain ⟨i, hlowers, -⟩ := hset.command_inv
  cases hlowers with
  | set hknown => exact hknown

theorem halted (h : program.Builds image) {n : Nat} {m : Machine}
    (hrun : Machine.run image.bytecode n .initial = (m, .halted)) :
    m.operands = [] ∧ m.returns = [] ∧ ∃ values, values.length = program.targets.length ∧
      Machine.topSets image.bytecode n = (program.targets.map nameHash).zip values ∧
      (∀ x ∈ program.targets, m.bindings.stack (nameHash x) =
        (((program.targets.zip values).filter (·.1 = x)).map (·.2)).reverse) ∧
      ∀ hash, hash ∉ program.targets.map nameHash → m.bindings.stack hash = [] := by
  obtain ⟨r, a, passed, -, hpath, hended⟩ := h.ended hrun
  obtain ⟨-, hsets⟩ := hpath.sets_of_run_halted [] hended.ip.ge hrun
  refine ⟨hended.operands, hended.returns, ?_⟩
  rw [Machine.topSets, hsets]
  exact hended.stacks fun x hx => h.knows_target hx

end Source.Program.Builds

/-- A call that comes back to as many return addresses is past the call instruction, with one value
in the place of its arguments and everything else as it was. When the machine halts, its stacks are
empty, and what is bound is what was set outside of calls: a value for each assignment that the
program makes outside of its functions, in order. -/
theorem Toolchain.calling_convention {source asm : String} {image : Image}
    (hcompile : compile source = .ok asm) (hassemble : assemble asm = .ok image) :
    ∃ program, parse source = .ok program ∧
      (∀ k address, decode image.bytecode (Machine.after image.bytecode k .initial).ip =
        .ok (.call address) →
        ∃ d ∈ program.definitions, image.labels.lookup d.id.qualified = some address ∧
          (∀ e ∈ program.definitions, image.labels.lookup e.id.qualified = some address → e = d) ∧
          ∀ t, (Machine.after image.bytecode k .initial).ComesBack image.bytecode t →
            (Machine.after image.bytecode k .initial).CameBack d.params.length
              (Machine.after image.bytecode (k + t) .initial)) ∧
      ∀ n m, Machine.run image.bytecode n .initial = (m, .halted) →
        m.operands = [] ∧ m.returns = [] ∧ ∃ values, values.length = program.targets.length ∧
          Machine.topSets image.bytecode n = (program.targets.map nameHash).zip values ∧
          (∀ x ∈ program.targets, m.bindings.stack (nameHash x) =
            (((program.targets.zip values).filter (·.1 = x)).map (·.2)).reverse) ∧
          ∀ hash, hash ∉ program.targets.map nameHash → m.bindings.stack hash = [] := by
  obtain ⟨program, hprogram, hbuilds⟩ := builds_of_compile hcompile hassemble
  refine ⟨program, hprogram, ?_, fun n m hrun => hbuilds.halted hrun⟩
  intro k address hcall
  obtain ⟨d, hd, hlabel, hback⟩ := hbuilds.call_comes_back hcall
  refine ⟨d, hd, hlabel, ?_, hback⟩
  exact fun e he heLabel => hbuilds.callee_of_label he hd heLabel hlabel

/-- A function of two parameters, called once for each of two assignments to one variable. -/
def Toolchain.twoAssignments : String :=
  "def f(a, b) { c = a; return c - b; } x = f(3, 2); x = f(x, 1);"

theorem Toolchain.two_assignments_leave_two_values : ∃ asm image m,
    compile twoAssignments = .ok asm ∧ assemble asm = .ok image ∧
    (Machine.after image.bytecode 3 .initial).CameBack 2
      (Machine.after image.bytecode 15 .initial) ∧
    Machine.run image.bytecode 31 .initial = (m, .halted) ∧ m.operands = [] ∧ m.returns = [] ∧
    (m.bindings.stack (nameHash "x")).length = 2 := by
  obtain ⟨image, hbuilt, hruns⟩ := exists_of_any (by decide +kernel :
    (compile twoAssignments >>= assemble).toOption.any (fun image : Image =>
      decide (decode image.bytecode (Machine.after image.bytecode 3 .initial).ip =
        .ok (.call 5)) &&
      decide ((Machine.after image.bytecode 3 .initial).ComesBack image.bytecode 12) &&
      decide ((Machine.run image.bytecode 31 .initial).2 = .halted)) = true)
  simp only [Bool.and_eq_true, decide_eq_true_eq] at hruns
  obtain ⟨⟨hcall, hcomes⟩, hhalts⟩ := hruns
  obtain ⟨asm, hcompile, hassemble⟩ := bind_eq_ok_iff.1 hbuilt
  obtain ⟨program, hprogram, hcalls, hhalted⟩ := calling_convention hcompile hassemble
  have hparsed : (parse twoAssignments).toOption.map (fun program =>
      (program.targets, program.definitions.map (·.params.length))) = some (["x", "x"], [2]) := by
    decide +kernel
  rw [hprogram] at hparsed
  obtain ⟨htargets, hdefs⟩ := Prod.mk.inj (Option.some.inj hparsed)
  obtain ⟨d, hd, -, -, hback⟩ := hcalls 3 5 hcall
  have harity : d.params.length = 2 := by
    have hmem : d.params.length ∈ [2] := hdefs ▸ List.mem_map_of_mem hd
    exact List.mem_singleton.1 hmem
  have hcame := hback 12 hcomes
  rw [harity] at hcame
  have hrun : Machine.run image.bytecode 31 .initial =
      ((Machine.run image.bytecode 31 .initial).1, .halted) := Prod.ext rfl hhalts
  obtain ⟨hoperands, hreturns, values, hlength, -, hstack, -⟩ := hhalted _ _ hrun
  rw [htargets] at hlength hstack
  obtain ⟨first, second, rfl⟩ := List.length_eq_two.1 hlength
  refine ⟨asm, image, _, hcompile, hassemble, hcame, hrun, hoperands, hreturns, ?_⟩
  rw [hstack "x" (by simp)]
  rfl

end StackCalc
