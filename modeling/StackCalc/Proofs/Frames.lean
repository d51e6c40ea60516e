import Mathlib.Data.List.Nodup
import StackCalc.Program.Evaluate
import StackCalc.Proofs.Bindings
import StackCalc.Proofs.Scoping

/-!
# Frames and scopes

The frame that evaluation keeps for a running body and the scopes that compiling keeps for its
text mean the same by every name. They bind the parameters of a function in opposite orders,
which is not seen because no two parameters share a name.
-/

namespace StackCalc

open Source

/-- What compiling knows of a function. -/
def Closure.entry (f : Closure) : FunctionEntry := ⟨f.id, f.params.length⟩

/-- A frame and scopes mean the same by every name. -/
structure Matches (scopes : Scopes) (frame : Frame) : Prop where
  qualify : ∀ name, frame.qualify name = scopes.qualify name
  vars : ∀ name, frame.findVariable? name = scopes.findVariable? name
  functions : frame.functions.map Closure.entry = scopes.visible.flatMap (·.functions)
  defined : ∀ name ∈ frame.defined, (scopes.qualify name).qualified ∈ scopes.defined
  owner : frame.owner = none → scopes.depth = 0

namespace Matches

variable {scopes : Scopes} {frame : Frame}

theorem topLevel : Matches .empty .topLevel where
  qualify name := by
    simp [Frame.qualify, Frame.topLevel, Scopes.qualify, Scopes.empty, Scopes.path]
  vars name := rfl
  functions := rfl
  defined := by simp [Frame.topLevel]
  owner _ := rfl

theorem findFunction? (h : Matches scopes frame) (name : String) :
    (frame.findFunction? name).map Closure.entry = scopes.findFunction? name := by
  rw [Scopes.findFunction?, ← h.functions, List.find?_map]
  rfl

theorem bind (h : Matches scopes frame) (x : ScopedName) :
    Matches (scopes.grow [x] [] []) { frame with own := x :: frame.own } where
  qualify name := by
    rw [Scopes.qualify_grow]
    exact h.qualify name
  vars name := by
    have hvars := h.vars name
    rw [Scopes.findVariable?, Scopes.vars_grow]
    rw [Scopes.findVariable?] at hvars
    simp only [Frame.findVariable?, Frame.vars, List.cons_append, List.find?_cons,
      List.nil_append] at hvars ⊢
    rw [hvars]
  functions := by
    rw [Scopes.functions_grow]
    exact h.functions
  defined name hname := by
    rw [Scopes.qualify_grow]
    exact h.defined name hname
  owner howner := by
    rw [Scopes.depth_grow]
    exact h.owner howner

theorem bind_eq {a : Activation} (h : Matches scopes a.frame) (name : String) (value : Number) :
    a.bind name value =
      ⟨{ a.frame with own := scopes.qualify name :: a.frame.own },
        a.session.store.push (scopes.qualify name).qualified value, a.session.printed⟩ := by
  rw [Activation.bind, h.qualify]

theorem define (h : Matches scopes frame) (name : Ident) (params : List Ident) (body : List Stmt)
    {names : List String} (hname : (scopes.qualify name.val).qualified ∈ names) :
    Matches (scopes.grow [] [⟨scopes.qualify name.val, params.length⟩] names)
      (frame.define name params body) where
  qualify name := by
    rw [Scopes.qualify_grow]
    exact h.qualify name
  vars name := by
    rw [Scopes.findVariable?, Scopes.vars_grow]
    exact h.vars name
  functions := by
    rw [Scopes.functions_grow, ← h.functions, ← h.qualify]
    rfl
  defined other hother := by
    rw [Scopes.qualify_grow, Scopes.defined_grow, List.mem_append]
    rcases List.mem_cons.1 hother with rfl | hother
    · exact .inl hname
    · exact .inr (h.defined other hother)
  owner howner := by
    rw [Scopes.depth_grow]
    exact h.owner howner

/-- The body of a function that is defined here begins with what is visible here. -/
theorem inside (h : Matches scopes frame) (name : Ident) (params : List Ident)
    (body : List Stmt) :
    Matches (scopes.inside (scopes.qualify name.val) params.length)
      (.ofClosure ⟨frame.qualify name.val, params, body, frame.vars, frame.functions⟩) where
  qualify inner := by
    rw [h.qualify, Scopes.qualify_eq _ inner, Scopes.path_inside, Scopes.qualify_eq]
    have hsnoc := qualifiedBy_snoc scopes.path name.val inner
    simp only [Frame.qualify, Frame.ofClosure, ← hsnoc]
    rfl
  vars name := by
    rw [Scopes.findVariable?, Scopes.vars_inside]
    exact h.vars name
  functions := by
    rw [Scopes.functions_inside, ← h.functions, ← h.qualify]
    rfl
  defined := by simp [Frame.ofClosure]
  owner howner := by cases howner

end Matches

theorem nodup_of_repeated? {params : List Ident} {seen : List String}
    (h : repeated? seen params = none) :
    (params.map (·.val)).Nodup ∧ ∀ p ∈ params, p.val ∉ seen := by
  induction params generalizing seen with
  | nil => simp
  | cons p params ih =>
      rw [repeated?] at h
      split at h
      · cases h
      · next hp =>
          obtain ⟨hnodup, hnot⟩ := ih h
          refine ⟨List.nodup_cons.2 ⟨?_, hnodup⟩, ?_⟩
          · intro hmem
            obtain ⟨q, hq, heq⟩ := List.mem_map.1 hmem
            exact hnot q hq (by simp [heq])
          · intro q hq
            rcases List.mem_cons.1 hq with rfl | hq
            · exact hp
            · exact fun hseen => hnot q hq (List.mem_cons_of_mem _ hseen)

theorem nodup_of_checkParams {params : List Ident} (h : checkParams params = .ok ()) :
    (params.map (·.val)).Nodup := by
  unfold checkParams at h
  split at h
  · cases h
  · next hnone => exact (nodup_of_repeated? hnone).1

theorem find?_reverse_of_nodup {xs : List ScopedName} (h : (xs.map (·.name)).Nodup)
    (name : String) : xs.reverse.find? (·.name = name) = xs.find? (·.name = name) := by
  induction xs with
  | nil => rfl
  | cons x xs ih =>
      obtain ⟨hnot, hnodup⟩ := List.nodup_cons.1 h
      rw [List.reverse_cons, List.find?_append, ih hnodup]
      by_cases hx : x.name = name
      · have hnone : xs.find? (·.name = name) = none := by
          rw [List.find?_eq_none]
          intro y hy hyname
          have heq : y.name = x.name := (of_decide_eq_true hyname).trans hx.symm
          exact hnot (List.mem_map.2 ⟨y, hy, heq⟩)
        simp [hnone, hx]
      · simp [hx]

/-- Variables with different names may be bound on both sides in opposite orders. -/
theorem Matches.bindAll {scopes : Scopes} {frame : Frame} (h : Matches scopes frame)
    {xs : List ScopedName} (hxs : (xs.map (·.name)).Nodup) :
    Matches (scopes.grow xs [] []) { frame with own := xs.reverse ++ frame.own } where
  qualify name := by
    rw [Scopes.qualify_grow]
    exact h.qualify name
  vars name := by
    have hvars := h.vars name
    rw [Scopes.findVariable?, Scopes.vars_grow, List.find?_append]
    rw [Scopes.findVariable?] at hvars
    simp only [Frame.findVariable?, Frame.vars, List.append_assoc] at hvars ⊢
    rw [List.find?_append, find?_reverse_of_nodup hxs, hvars]
  functions := by
    rw [Scopes.functions_grow]
    exact h.functions
  defined name hname := by
    rw [Scopes.qualify_grow]
    exact h.defined name hname
  owner howner := by
    rw [Scopes.depth_grow]
    exact h.owner howner

namespace Source

theorem qualifiedBy_injective (path : List String) {name name' : String}
    (h : (qualifiedBy path name).qualified = (qualifiedBy path name').qualified) :
    name = name' := by
  rcases List.eq_nil_or_concat' path with rfl | ⟨path, outer, rfl⟩
  · simpa [qualifiedBy] using h
  · rw [qualifiedBy_snoc, qualifiedBy_snoc] at h
    have hchars := congrArg String.toList h
    simp only [String.toList_append] at hchars
    exact String.toList_injective (List.append_cancel_left hchars)

end Source

theorem Scopes.names_qualifyAll (scopes : Scopes) (params : List Ident) :
    (scopes.qualifyAll params).map (·.name) = params.map (·.val) := by
  simp [qualifyAll, qualify]

theorem Scopes.nodup_qualifyAll {scopes : Scopes} {params : List Ident}
    (h : (params.map (·.val)).Nodup) : ((scopes.qualifyAll params).map (·.qualified)).Nodup := by
  have hmap : (scopes.qualifyAll params).map (·.qualified) =
      (params.map (·.val)).map fun name => (scopes.qualify name).qualified := by
    simp [qualifyAll]
  rw [hmap]
  exact (List.nodup_map_iff fun _ _ heq => qualifiedBy_injective scopes.path heq).2 h

/-- The names that a call binds the values of its arguments by. -/
def Closure.paramNames (f : Closure) : List ScopedName :=
  f.params.map fun p => (Frame.ofClosure f).qualify p.val

namespace Activation

theorem foldl_bind (a : Activation) (params : List Ident) (values : List Number)
    (h : values.length = params.length) :
    let xs := params.map fun p => a.frame.qualify p.val
    (params.zip values).foldl (fun a (param, value) => a.bind param.val value) a =
      ⟨{ a.frame with own := xs.reverse ++ a.frame.own },
        a.session.store.pushAll ((xs.map (·.qualified)).zip values).reverse,
        a.session.printed⟩ := by
  induction params generalizing a values with
  | nil => rfl
  | cons p params ih =>
      cases values with
      | nil => cases h
      | cons v values =>
          have hbind : ∀ name, (a.bind p.val v).frame.qualify name = a.frame.qualify name :=
            fun name => rfl
          have hrest := ih (a.bind p.val v) values (Nat.succ.inj h)
          simp only [hbind] at hrest
          rw [List.zip_cons_cons, List.foldl_cons, hrest]
          simp [Bindings.pushAll_append, Bindings.pushAll, bind]

theorem enter_eq (session : Session) (f : Closure) (values : List Number)
    (h : values.length = f.params.length) :
    enter session f values = ⟨{ Frame.ofClosure f with own := f.paramNames.reverse },
      session.store.pushAll ((f.paramNames.map (·.qualified)).zip values).reverse,
      session.printed⟩ := by
  rw [enter, foldl_bind _ _ _ h]
  simp [Frame.ofClosure, Closure.paramNames]

end Activation

end StackCalc
