import StackCalc.Proofs.Walking

/-!
# Walks end, and open calls are counted

Wherever a walk comes to, its counter is the number of the callers that wait, and every call that is
gathered for has as many arguments as its function takes. A call is then too deep just where it is
attempted with as many calls open as may be, and evaluation fails for that just if its walk gets to
such a call.
-/

namespace StackCalc

open Source

/-- A function is the one that the name means, and takes that many arguments. -/
def Callee.Fits (frame : Frame) (name : Ident) (count : Nat) : Callee Closure → Prop
  | .function f => frame.findFunction? name.val = some f ∧ f.params.length = count
  | .print => True

def Hole.Fits (frame : Frame) : Hole → Prop
  | .argument name callee done rest => callee.Fits frame name (done.length + (rest.length + 1))
  | .rightOf _ _ | .leftOf _ _ => True

def Place.Fits (frame : Frame) (place : Place) : Prop := ∀ hole ∈ place.holes, hole.Fits frame

def Control.Fits (frame : Frame) : Control → Prop
  | .evaluate _ place | .give _ place => place.Fits frame
  | .gather name callee done rest place =>
    callee.Fits frame name (done.length + rest.length) ∧ place.Fits frame
  | .run _ | .leave _ | .fail _ => True

/-- Not failed for a call that is too deep. -/
def Control.Plain : Control → Prop
  | .fail e => e.val ≠ .tooDeep
  | .run _ | .evaluate _ _ | .gather _ _ _ _ _ | .give _ _ | .leave _ => True

theorem Evaluate.callee_fits {frame : Frame} {name : Ident} {count : Nat}
    {callee : Callee Closure} (h : Evaluate.callee frame name count = .ok callee) :
    callee.Fits frame name count := by
  cases callee with
  | function f => exact Callee.resolve_function h
  | print => exact trivial

theorem Place.fits_inside {frame : Frame} {place : Place} {hole : Hole} :
    (place.inside hole).Fits frame ↔ hole.Fits frame ∧ place.Fits frame :=
  List.forall_mem_cons

theorem Place.fits_empty (frame : Frame) (use : Use) (behind : List Stmt) :
    (⟨[], use, behind⟩ : Place).Fits frame :=
  List.forall_mem_nil _

namespace Walker

/-- What holds wherever a walk comes to. -/
structure Sound (w : Walker) : Prop where
  depth_eq : w.depth = w.callers.length
  depth_le : w.depth ≤ maxCallDepth
  control : w.control.Fits w.activation.frame
  callers : ∀ caller ∈ w.callers, caller.place.Fits caller.frame

/-- What a step can do: it goes on in the body that runs, opens a call or refuses it, or leaves the
body for its caller with a value or with a failure. -/
inductive Moves (w : Walker) : Walker → Prop where
  | goes {control : Control} {activation : Activation} (hfits : control.Fits activation.frame)
      (hplain : control.Plain) : Moves w { w with control := control, activation := activation }
  | opens {name : Ident} {f : Closure} {values : List Number} {place : Place}
      (hcontrol : w.control = .gather name (.function f) values [] place)
      (hplace : place.Fits w.activation.frame) (hopen : w.depth < maxCallDepth) :
      Moves w ⟨.run f.body, .enter w.activation.session f values, w.depth + 1,
        ⟨w.activation.frame, place⟩ :: w.callers⟩
  | refuses {name : Ident} {f : Closure} {values : List Number} {place : Place}
      (hcontrol : w.control = .gather name (.function f) values [] place)
      (hfull : maxCallDepth ≤ w.depth) : Moves w (w.goTo (.fail ⟨.tooDeep, name.span⟩))
  | returns {caller : Caller} {callers : List Caller} (value : Number)
      (hcallers : w.callers = caller :: callers) :
      Moves w ⟨.give value caller.place, ⟨caller.frame, w.activation.leave⟩, w.depth - 1, callers⟩
  | unwinds {caller : Caller} {callers : List Caller} {e : Located EvalError}
      (hcontrol : w.control = .fail e) (hcallers : w.callers = caller :: callers) :
      Moves w ⟨.fail e, ⟨caller.frame, w.activation.leave⟩, w.depth - 1, callers⟩
  | rests (hcallers : w.callers = []) : Moves w w

section Step

variable {w w' : Walker}

theorem goTo_moves {control : Control} (hfits : control.Fits w.activation.frame)
    (hplain : control.Plain) : Moves w (w.goTo control) :=
  .goes hfits hplain

theorem refuse_moves (e : CompileError) (span : Span) : Moves w (w.refuse e span) :=
  goTo_moves trivial EvalError.noConfusion

theorem check_moves {α : Type} {checked : Checked α} {next : α → Control}
    (hfits : ∀ x, checked = .ok x → (next x).Fits w.activation.frame)
    (hplain : ∀ x, (next x).Plain) : Moves w (w.check checked next) := by
  cases checked with
  | ok x => exact goTo_moves (hfits x rfl) (hplain x)
  | error e => exact refuse_moves e.val e.span

theorem runStatement_moves (ss : List Stmt) (s : Stmt) : Moves w (w.runStatement ss s) := by
  have hempty := Place.fits_empty w.activation.frame
  cases s with
  | define name params body =>
      unfold runStatement
      dsimp only
      split
      · exact refuse_moves _ _
      · split
        · exact refuse_moves _ _
        · exact .goes trivial trivial
  | assign target e => exact goTo_moves (hempty _ ss) trivial
  | giveBack e span =>
      unfold runStatement
      dsimp only
      split
      · exact refuse_moves _ _
      · exact goTo_moves (hempty _ ss) trivial
  | eval e =>
      cases e with
      | call name args =>
          refine check_moves (fun callee hcallee => ?_) fun callee => trivial
          rw [← Nat.zero_add args.length] at hcallee
          exact ⟨Evaluate.callee_fits hcallee, hempty _ ss⟩
      | number value | «variable» name | binary op lhs rhs =>
          exact goTo_moves (hempty _ ss) trivial

theorem evaluate_moves {place : Place} (hplace : place.Fits w.activation.frame) (e : Expr) :
    Moves w (w.evaluate place e) := by
  cases e with
  | number value => exact goTo_moves hplace trivial
  | «variable» name =>
      unfold evaluate
      dsimp only
      split
      · exact goTo_moves hplace trivial
      · exact refuse_moves _ _
  | binary op lhs rhs => exact goTo_moves (Place.fits_inside.2 ⟨trivial, hplace⟩) trivial
  | call name args =>
      apply check_moves
      · intro callee hcallee
        rw [← Nat.zero_add args.length] at hcallee
        cases callee with
        | print => exact trivial
        | function f => exact ⟨Evaluate.callee_fits hcallee, hplace⟩
      · intro callee
        cases callee with
        | print => exact EvalError.noConfusion
        | function f => exact trivial

theorem call_moves {name : Ident} {f : Closure} {values : List Number} {place : Place}
    (hcontrol : w.control = .gather name (.function f) values [] place)
    (hplace : place.Fits w.activation.frame) : Moves w (w.call name f values place) := by
  by_cases hfull : maxCallDepth ≤ w.depth
  · rw [call_of_full hfull]
    exact .refuses hcontrol hfull
  · rw [call_of_open hfull]
    exact .opens hcontrol hplace (Nat.lt_of_not_le hfull)

theorem gather_moves {name : Ident} {callee : Callee Closure} {done : List Number}
    {rest : List Expr} {place : Place} (hcontrol : w.control = .gather name callee done rest place)
    (hfits : w.control.Fits w.activation.frame) :
    Moves w (w.gather name callee done place rest) := by
  rw [hcontrol] at hfits
  obtain ⟨hcallee, hplace⟩ := hfits
  cases rest with
  | cons arg rest => exact goTo_moves (Place.fits_inside.2 ⟨hcallee, hplace⟩) trivial
  | nil =>
      cases callee with
      | function f => exact call_moves hcontrol hplace
      | print => exact .goes trivial trivial

theorem give_moves {value : Number} {place : Place} (hplace : place.Fits w.activation.frame) :
    Moves w (w.give value place) := by
  obtain ⟨holes, use, behind⟩ := place
  cases holes with
  | cons hole holes =>
      obtain ⟨hhole, hholes⟩ := List.forall_mem_cons.1 hplace
      cases hole with
      | rightOf op lhs => exact goTo_moves (List.forall_mem_cons.2 ⟨trivial, hholes⟩) trivial
      | leftOf op right => exact goTo_moves hholes trivial
      | argument name callee done rest =>
          refine goTo_moves ⟨?_, hholes⟩ trivial
          rw [List.length_append, Nat.add_assoc, Nat.add_comm _ rest.length]
          exact hhole
  | nil =>
      cases use with
      | assign target => exact .goes trivial trivial
      | giveBack | drop => exact goTo_moves trivial trivial

theorem step_moves (hfits : w.control.Fits w.activation.frame) : Moves w w.step := by
  unfold step
  cases hcontrol : w.control with
  | run ss =>
      cases ss with
      | nil => exact goTo_moves trivial trivial
      | cons s ss => exact runStatement_moves ss s
  | evaluate e place =>
      rw [hcontrol] at hfits
      exact evaluate_moves hfits e
  | gather name callee done rest place => exact gather_moves hcontrol hfits
  | give value place =>
      rw [hcontrol] at hfits
      exact give_moves hfits
  | leave returned =>
      dsimp only
      unfold leave
      split
      · next hcallers => exact .rests hcallers
      · next hcallers => exact .returns _ hcallers
  | fail e =>
      dsimp only
      unfold leave
      split
      · next hcallers => exact .rests hcallers
      · next hcallers => exact .unwinds hcontrol hcallers

theorem Sound.left (h : w.Sound) {caller : Caller} {callers : List Caller}
    (hcallers : w.callers = caller :: callers) (session : Session) {control : Control}
    (hfits : caller.place.Fits caller.frame → control.Fits caller.frame) :
    Sound ⟨control, ⟨caller.frame, session⟩, w.depth - 1, callers⟩ := by
  have hdepth := h.depth_eq
  have hall := h.callers
  rw [hcallers] at hdepth hall
  obtain ⟨hcaller, hrest⟩ := List.forall_mem_cons.1 hall
  exact ⟨congrArg (· - 1) hdepth, Nat.le_trans (Nat.sub_le _ _) h.depth_le, hfits hcaller, hrest⟩

theorem Sound.moves (h : w.Sound) (hmoves : w.Moves w') : w'.Sound := by
  have hdepth := h.depth_eq
  cases hmoves with
  | goes hfits hplain => exact ⟨hdepth, h.depth_le, hfits, h.callers⟩
  | opens hcontrol hplace hopen =>
      exact ⟨congrArg (· + 1) hdepth, hopen, trivial, List.forall_mem_cons.2 ⟨hplace, h.callers⟩⟩
  | refuses hcontrol hfull => exact ⟨hdepth, h.depth_le, trivial, h.callers⟩
  | returns value hcallers => exact h.left hcallers _ id
  | unwinds hcontrol hcallers => exact h.left hcallers _ fun _ => trivial
  | rests hcallers => exact h

end Step

/-- A call of a function is attempted that the name means, with as many values as it takes. -/
structure Attempts (w : Walker) (name : Ident) (f : Closure) (values : List Number) : Prop where
  gathered : ∃ place, w.control = .gather name (.function f) values [] place
  found : w.activation.frame.findFunction? name.val = some f
  arity : values.length = f.params.length

/-- The next step fails, and none before it did. -/
structure Raises (w : Walker) (e : Located EvalError) : Prop where
  before : ∀ e', w.control ≠ .fail e'
  after : w.step.control = .fail e

/-- A call that is attempted with as many calls open as may be. -/
def AttemptsTooDeep (w : Walker) (span : Span) : Prop :=
  ∃ name f values, w.Attempts name f values ∧ w.callers.length = maxCallDepth ∧ name.span = span

section Raising

variable {w : Walker} {span : Span}

theorem Sound.attempts (h : w.Sound) {name : Ident} {f : Closure} {values : List Number}
    {place : Place} (hcontrol : w.control = .gather name (.function f) values [] place) :
    w.Attempts name f values := by
  have hfits := h.control
  rw [hcontrol] at hfits
  exact ⟨⟨place, hcontrol⟩, hfits.1.1, hfits.1.2.symm⟩

theorem Sound.attemptsTooDeep_of_raises (h : w.Sound) (hraises : w.Raises ⟨.tooDeep, span⟩) :
    w.AttemptsTooDeep span := by
  obtain ⟨hbefore, hafter⟩ := hraises
  have hmoves := step_moves h.control
  generalize w.step = w' at hmoves hafter
  cases hmoves with
  | goes hfits hplain =>
      cases hafter
      exact absurd rfl hplain
  | opens hcontrol hplace hopen => cases hafter
  | refuses hcontrol hfull =>
      have hlength := Nat.le_antisymm h.depth_le hfull
      rw [h.depth_eq] at hlength
      cases hafter
      exact ⟨_, _, _, h.attempts hcontrol, hlength, rfl⟩
  | returns value hcallers => cases hafter
  | unwinds hcontrol hcallers => exact absurd hcontrol (hbefore _)
  | rests hcallers => exact absurd hafter (hbefore _)

theorem Sound.raises_of_attemptsTooDeep (h : w.Sound) (hattempts : w.AttemptsTooDeep span) :
    w.Raises ⟨.tooDeep, span⟩ := by
  obtain ⟨name, f, values, ⟨⟨place, hcontrol⟩, -, -⟩, hlength, rfl⟩ := hattempts
  have hfull : maxCallDepth ≤ w.depth := Nat.le_of_eq (hlength.symm.trans h.depth_eq.symm)
  constructor
  · intro e'
    rw [hcontrol]
    exact Control.noConfusion
  · unfold step
    rw [hcontrol]
    change (w.call name f values place).control = _
    rw [call_of_full hfull]
    rfl

/-- A call is refused for its depth just where as many are open as may be. -/
theorem Sound.raises_iff (h : w.Sound) : w.Raises ⟨.tooDeep, span⟩ ↔ w.AttemptsTooDeep span :=
  ⟨h.attemptsTooDeep_of_raises, h.raises_of_attemptsTooDeep⟩

end Raising

section Failing

variable {w : Walker} {e : Located EvalError}

/-- A failure goes through all the callers. -/
theorem step_fails (h : w.control = .fail e) : w.step.control = .fail e := by
  unfold step
  rw [h]
  dsimp only
  unfold leave
  split
  · exact h
  · rfl

theorem control_eq_fail_iff {outcome : Session × Except (Located EvalError) Unit}
    (h : w.outcome? = some outcome) : w.control = .fail e ↔ outcome.2 = .error e := by
  unfold outcome? at h
  split at h
  · next hcontrol =>
      cases h
      simp [hcontrol]
  · next hcontrol =>
      cases h
      simp [hcontrol]
  · cases h

/-- Once the top level is left, nothing happens any more. -/
theorem step_of_outcome {outcome : Session × Except (Located EvalError) Unit}
    (h : w.outcome? = some outcome) : w.step = w := by
  unfold outcome? at h
  split at h
  · next hcallers hcontrol =>
      unfold step leave
      rw [hcontrol, hcallers]
  · next hcallers hcontrol =>
      unfold step leave
      rw [hcontrol, hcallers]
  · cases h

end Failing

/-- The state behind a number of steps. -/
def walk (session : Session) (program : Program) (n : Nat) : Walker :=
  step^[n] (begins session program)

section Walk

variable {session : Session} {program : Program}

theorem walk_succ (n : Nat) : walk session program (n + 1) = (walk session program n).step :=
  Function.iterate_succ_apply' step n _

theorem walk_sound (n : Nat) : (walk session program n).Sound := by
  induction n with
  | zero => exact ⟨rfl, Nat.zero_le _, trivial, List.forall_mem_nil _⟩
  | succ n ih =>
      rw [walk_succ]
      exact ih.moves (step_moves ih.control)

theorem walk_fails {n : Nat} {e : Located EvalError}
    (h : (walk session program n).control = .fail e) (k : Nat) :
    (walk session program (n + k)).control = .fail e := by
  induction k with
  | zero => exact h
  | succ k ih =>
      rw [← Nat.add_assoc, walk_succ]
      exact step_fails ih

theorem walk_rests {n : Nat} {outcome : Session × Except (Located EvalError) Unit}
    (h : (walk session program n).outcome? = some outcome) (k : Nat) :
    walk session program (n + k) = walk session program n := by
  induction k with
  | zero => rfl
  | succ k ih =>
      rw [← Nat.add_assoc, walk_succ, ih]
      exact step_of_outcome h

/-- A walk that has failed has gone on to fail somewhere. -/
theorem exists_raises {n : Nat} {e : Located EvalError}
    (h : (walk session program n).control = .fail e) :
    ∃ n, (walk session program n).Raises e := by
  induction n with
  | zero => cases h
  | succ n ih =>
      rw [walk_succ] at h
      by_cases hbefore : ∃ e', (walk session program n).control = .fail e'
      · obtain ⟨e', he'⟩ := hbefore
        rw [step_fails he'] at h
        cases h
        exact ih he'
      · exact ⟨n, not_exists.1 hbefore, h⟩

theorem evaluate_eq_error_iff {e : Located EvalError} :
    (session.evaluate program).2 = .error e ↔ ∃ n, (walk session program n).Raises e := by
  obtain ⟨last, hlast⟩ := exists_outcome session program
  rw [← control_eq_fail_iff hlast]
  constructor
  · exact exists_raises
  · rintro ⟨n, hraises⟩
    have hfails : (walk session program (n + 1)).control = .fail e := by
      rw [walk_succ]
      exact hraises.after
    -- Stepped on far enough, the walk is both failed and where it ended.
    have hlater := walk_fails hfails last
    rwa [Nat.add_comm, walk_rests hlast] at hlater

/-- The walk of every program ends with the outcome of its evaluation. All along, its counter is the
number of open calls, which never passes the limit. A call is refused for its depth just where it is
attempted, its arguments all evaluated and as many as its function takes, with as many calls open as
may be; evaluation fails for that just if its walk gets to such a call. -/
theorem walk_ends (session : Session) (program : Program) :
    (∃ n, (walk session program n).outcome? = some (session.evaluate program)) ∧
    (∀ n, (walk session program n).depth = (walk session program n).callers.length ∧
      (walk session program n).depth ≤ maxCallDepth) ∧
    (∀ n span, (walk session program n).Raises ⟨.tooDeep, span⟩ ↔
      (walk session program n).AttemptsTooDeep span) ∧
    ∀ span, (session.evaluate program).2 = .error ⟨.tooDeep, span⟩ ↔
      ∃ n, (walk session program n).AttemptsTooDeep span := by
  refine ⟨exists_outcome session program, fun n => ?_, fun n span => ?_, fun span => ?_⟩
  · exact ⟨(walk_sound n).depth_eq, (walk_sound n).depth_le⟩
  · exact (walk_sound n).raises_iff
  · exact evaluate_eq_error_iff.trans (exists_congr fun n => (walk_sound n).raises_iff)

end Walk

/-- The program `def f() { return f(); } f();`. -/
def runaway : Program :=
  [.define ⟨"f", 4, 5⟩ [] [.giveBack (.call ⟨"f", 17, 18⟩ []) ⟨10, 21⟩],
    .eval (.call ⟨"f", 24, 25⟩ [])]

/-- A function that calls itself without end is cut off, at the call inside it, where its walk finds
the limit of open calls. -/
theorem runaway_cut_off : (Session.empty.evaluate runaway).2 = .error ⟨.tooDeep, 17, 18⟩ ∧
    ∃ n, (walk .empty runaway n).AttemptsTooDeep ⟨17, 18⟩ := by
  have hdeep : (Session.empty.evaluate runaway).2 = .error ⟨.tooDeep, 17, 18⟩ := by
    decide +kernel
  exact ⟨hdeep, ((walk_ends .empty runaway).2.2.2 ⟨17, 18⟩).1 hdeep⟩

end Walker

end StackCalc
