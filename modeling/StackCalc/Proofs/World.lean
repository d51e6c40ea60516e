import StackCalc.Proofs.Frames
import StackCalc.Proofs.Placement
import StackCalc.Proofs.Run

/-!
# What evaluation and the machine share

Evaluation keeps values under names, the machine under the hashes of names; they agree on every
name that the image knows. Beside the relation between the two stands what holds of the machine
alone at each instruction: which addresses stay on its return stack, and that a call always leads
to the code of a function with arguments for it.
-/

namespace StackCalc

open Assembly Source

/-- The image was written with a name, and with no other of the same hash. -/
def Assembly.Image.Knows (image : Image) (name : String) : Prop :=
  image.names.lookup (nameHash name) = some name

theorem Assembly.Image.Knows.hash_eq_iff {image : Image} {name name' : String}
    (h : image.Knows name) (h' : image.Knows name') : nameHash name = nameHash name' ↔
      name = name' := by
  refine ⟨fun heq => ?_, congrArg nameHash⟩
  have hlookup : image.names.lookup (nameHash name) = some name := h
  rw [heq, h'] at hlookup
  exact (Option.some.inj hlookup).symm

namespace Bindings

variable {κ α : Type} [DecidableEq κ]

theorem stack_pushAll_ne_nil {b : Bindings κ α} {added : List (κ × α)} {key : κ}
    (h : b.stack key ≠ [] ∨ key ∈ added.map Prod.fst) : (b.pushAll added).stack key ≠ [] := by
  rw [stack_pushAll]
  rcases h with h | h
  · simp [h]
  · obtain ⟨e, he, rfl⟩ := List.mem_map.1 h
    have hmem : e ∈ added.filter (·.1 = e.1) := by simp [he]
    intro hnil
    rw [List.append_eq_nil_iff, List.map_eq_nil_iff] at hnil
    rw [hnil.1] at hmem
    cases hmem

/-- A key that is given one value at most has the same values in both orders. -/
theorem filter_zip_reverse {keys : List κ} (h : keys.Nodup) (values : List α) (key : κ) :
    (keys.zip values).reverse.filter (·.1 = key) = (keys.zip values).filter (·.1 = key) := by
  induction keys generalizing values with
  | nil => rfl
  | cons k keys ih =>
      cases values with
      | nil => rfl
      | cons v values =>
          obtain ⟨hnot, hnodup⟩ := List.nodup_cons.1 h
          rw [List.zip_cons_cons, List.reverse_cons, List.filter_append, ih hnodup]
          by_cases hk : k = key
          · have hnone : (keys.zip values).filter (·.1 = key) = [] := by
              rw [List.filter_eq_nil_iff]
              rintro ⟨k', v'⟩ he heq
              have hkey : k' = k := (of_decide_eq_true heq).trans hk.symm
              exact hnot (hkey ▸ (List.of_mem_zip he).1)
            simp [hnone, hk]
          · simp [hk]

end Bindings

/-- The machine holds under hashes what evaluation holds under names, some variables of which are
live, and both have printed the same. -/
structure World (image : Image) (vars : List ScopedName) (session : Session) (m : Machine) :
    Prop where
  tied : ∀ name, image.Knows name → m.bindings.stack (nameHash name) = session.store.stack name
  live : ∀ x ∈ vars, session.store.stack x.qualified ≠ []
  storeProper : session.store.Proper
  bindingsProper : m.bindings.Proper
  printed : m.printed = session.printed

namespace World

variable {image : Image} {vars vars' : List ScopedName} {session session' : Session}
  {m m' : Machine}

theorem initial : World image [] .empty .initial where
  tied _ _ := rfl
  live := by simp
  storeProper := Bindings.proper_empty
  bindingsProper := Bindings.proper_empty
  printed := rfl

theorem mono (h : World image vars session m) (hvars : vars' ⊆ vars) :
    World image vars' session m :=
  ⟨h.tied, fun x hx => h.live x (hvars hx), h.storeProper, h.bindingsProper, h.printed⟩

theorem congr (h : World image vars session m) (hstore : session'.store = session.store)
    (hbindings : m'.bindings = m.bindings) (hprinted : m'.printed = session'.printed) :
    World image vars session' m' := by
  constructor
  · rw [hstore, hbindings]
    exact h.tied
  · rw [hstore]
    exact h.live
  · rw [hstore]
    exact h.storeProper
  · rw [hbindings]
    exact h.bindingsProper
  · exact hprinted

theorem filter_zip_hash {names : List String} {name : String} (hname : image.Knows name)
    (hnames : ∀ n ∈ names, image.Knows n) (values : List Number) :
    (((names.map nameHash).zip values).filter (·.1 = nameHash name)).map Prod.snd =
      ((names.zip values).filter (·.1 = name)).map Prod.snd := by
  induction names generalizing values with
  | nil => rfl
  | cons n names ih =>
      cases values with
      | nil => rfl
      | cons v values =>
          have hrest := ih (fun n hn => hnames n (by simp [hn])) values
          have hn : nameHash n = nameHash name ↔ n = name :=
            (hnames n (by simp)).hash_eq_iff hname
          rw [List.map_cons, List.zip_cons_cons, List.zip_cons_cons]
          by_cases heq : n = name
          · simp [heq, hrest]
          · have hne : ¬ nameHash n = nameHash name := fun h => heq (hn.1 h)
            simp [heq, hne, hrest]

theorem push (h : World image vars session m) {x : ScopedName} (hx : image.Knows x.qualified)
    (value : Number) (hbindings : m'.bindings = m.bindings.push (nameHash x.qualified) value)
    (hprinted : m'.printed = m.printed) :
    World image (x :: vars) ⟨session.store.push x.qualified value, session.printed⟩ m' where
  tied name hname := by
    rw [hbindings, Bindings.stack_push, Bindings.stack_push, h.tied name hname]
    simp only [hname.hash_eq_iff hx]
  live y hy := by
    rw [Bindings.stack_push]
    split
    · exact List.cons_ne_nil _ _
    · next hne =>
        rcases List.mem_cons.1 hy with rfl | hy
        · exact absurd rfl hne
        · exact h.live y hy
  storeProper := h.storeProper.push _ _
  bindingsProper := hbindings ▸ h.bindingsProper.push _ _
  printed := hprinted.trans h.printed

theorem bindAll (h : World image vars session m) {xs : List ScopedName} {values : List Number}
    (hknown : ∀ x ∈ xs, image.Knows x.qualified) (hnodup : (xs.map (·.qualified)).Nodup)
    (hcount : values.length = xs.length)
    (hbindings : m'.bindings = m.bindings.pushAll
      (((xs.map (·.qualified)).map nameHash).zip values))
    (hprinted : m'.printed = m.printed) :
    World image (xs.reverse ++ vars)
      ⟨session.store.pushAll ((xs.map (·.qualified)).zip values).reverse, session.printed⟩ m' where
  tied name hname := by
    have hnames : ∀ n ∈ xs.map (·.qualified), image.Knows n := by
      intro n hn
      obtain ⟨x, hx, rfl⟩ := List.mem_map.1 hn
      exact hknown x hx
    rw [hbindings, Bindings.stack_pushAll, Bindings.stack_pushAll, h.tied name hname,
      filter_zip_hash hname hnames, Bindings.filter_zip_reverse hnodup]
  live x hx := by
    apply Bindings.stack_pushAll_ne_nil
    rcases List.mem_append.1 hx with hx | hx
    · refine .inr ?_
      rw [List.map_reverse, List.mem_reverse, List.map_fst_zip (by simp [hcount])]
      exact List.mem_map_of_mem (List.mem_reverse.1 hx)
    · exact .inl (h.live x hx)
  storeProper := h.storeProper.pushAll _
  bindingsProper := hbindings ▸ h.bindingsProper.pushAll _
  printed := hprinted.trans h.printed

end World

/-- The code of a function lies in the image at its label, and so does that of every function
visible to it, whose variables it sees too. -/
inductive Installed (image : Image) (defs : List Definition) : Closure → Prop
  | intro {f : Closure} {scopes last : Scopes} {lines : List Line} {address : UInt32} {stop : Nat}
      (known : ⟨f.id, f.params⟩ ∈ defs)
      (distinct : checkParams f.params = .ok ())
      (matched : Matches scopes (.ofClosure f))
      (fresh : scopes.frameBindings = [])
      (body : Compile.statements (scopes.grow (scopes.qualifyAll f.params) [] []) f.body =
        .ok (lines, last))
      (inner : Stmt.definitionsOfAll scopes.path f.body ⊆ defs)
      (label : image.labels.lookup f.id.qualified = some address)
      (laid : Laid image address.toNat
        (Compile.bodyItems (Compile.paramSets scopes f.params) lines f.body last) stop)
      (inside : stop ≤ image.bytecode.length)
      (functions : ∀ g ∈ f.functions, Installed image defs g)
      (captured : ∀ g ∈ f.functions, g.vars ⊆ f.vars) : Installed image defs f

/-- The machine holds the arguments of a call on top of other operands, the last one on top. -/
structure Entry (image : Image) (defs : List Definition) (f : Closure) (values : List Number)
    (rest : List Number) (session : Session) (m : Machine) : Prop where
  installed : Installed image defs f
  operands : m.operands = values.reverse ++ rest
  count : values.length = f.params.length
  world : World image f.vars session m

/-- Does an instruction go to a function? -/
def Instruction.isCall : Instruction → Bool
  | .call _ => true
  | _ => false

/-- Does an instruction bind a name? -/
def Instruction.isSet : Instruction → Bool
  | .set _ => true
  | _ => false

/-- Where the machine is about to call, it calls a function with arguments for it. -/
def Callable (image : Image) (defs : List Definition) (m : Machine) : Prop :=
  ∀ address, Instruction.decode image.bytecode m.ip = .ok (.call address) →
    ∃ f values rest session, image.labels.lookup f.id.qualified = some address ∧
      Entry image defs f values rest session m

/-- Certain addresses stay at the bottom of the return stack. -/
structure Within (image : Image) (defs : List Definition) (floor : List Nat) (m : Machine) :
    Prop where
  above : floor <:+ m.returns
  callable : Callable image defs m

/-- Besides, nothing is set but above those addresses. -/
structure Calm (image : Image) (defs : List Definition) (floor : List Nat) (m : Machine) : Prop
    extends Within image defs floor m where
  calm : m.setAt? image.bytecode floor = none

section

variable {image : Image} {defs : List Definition} {m : Machine} {i : Instruction}
  {floor : List Nat}

theorem callable_of_decode (h : Instruction.decode image.bytecode m.ip = .ok i)
    (hcall : i.isCall = false) : Callable image defs m := by
  intro address haddress
  rw [h] at haddress
  cases haddress
  cases hcall

theorem within_of_decode (h : Instruction.decode image.bytecode m.ip = .ok i)
    (hcall : i.isCall = false) : Within image defs m.returns m :=
  ⟨List.suffix_rfl, callable_of_decode h hcall⟩

theorem setAt?_of_decode (h : Instruction.decode image.bytecode m.ip = .ok i)
    (hset : i.isSet = false) : m.setAt? image.bytecode floor = none := by
  unfold Machine.setAt?
  split
  · split
    · next hash _ _ hd _ =>
        rw [h] at hd
        cases hd
        cases hset
    · rfl
  · rfl

theorem calm_of_decode (h : Instruction.decode image.bytecode m.ip = .ok i)
    (hcall : i.isCall = false) (hset : i.isSet = false) : Calm image defs m.returns m :=
  ⟨within_of_decode h hcall, setAt?_of_decode h hset⟩

/-- Inside a call nothing is set at the level of the caller. -/
theorem Within.calm_of_cons {address : Nat} (h : Within image defs (address :: floor) m) :
    Calm image defs floor m := by
  refine ⟨⟨(List.suffix_cons _ _).trans h.above, h.callable⟩, ?_⟩
  have hne : m.returns ≠ floor := by
    intro heq
    have hlength := h.above.length_le
    rw [heq, List.length_cons] at hlength
    omega
  rw [Machine.setAt?, if_neg hne]

end

end StackCalc
