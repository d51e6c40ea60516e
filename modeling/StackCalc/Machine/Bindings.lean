/-!
# Bindings

A variable may be bound many times over; each key has a stack of values, the innermost first. Keys
are kept in the order in which they came in, and a key without a value is left out once its last
value is taken away.
-/

namespace StackCalc

variable {κ α : Type} [DecidableEq κ]

namespace Bindings

/-- The entries with one more value for a key. -/
def pushEntry (key : κ) (value : α) : List (κ × List α) → List (κ × List α)
  | [] => [(key, [value])]
  | (k, values) :: entries =>
    if k = key then (k, value :: values) :: entries
    else (k, values) :: pushEntry key value entries

/-- The entries without the innermost value of a key. -/
def popEntry (key : κ) : List (κ × List α) → List (κ × List α)
  | [] => []
  | (k, values) :: entries =>
    if k = key then
      match values.tail with
      | [] => entries
      | rest => (k, rest) :: entries
    else (k, values) :: popEntry key entries

theorem map_fst_pushEntry (key : κ) (value : α) (entries : List (κ × List α)) :
    (pushEntry key value entries).map Prod.fst =
      if key ∈ entries.map Prod.fst then entries.map Prod.fst
      else entries.map Prod.fst ++ [key] := by
  induction entries with
  | nil => rfl
  | cons e entries ih =>
      obtain ⟨k, values⟩ := e
      by_cases h : k = key
      · simp [pushEntry, h]
      · have h' : ¬ key = k := fun e => h e.symm
        simp only [pushEntry, h, if_false, List.map_cons, ih, List.mem_cons, h', false_or]
        split <;> rfl

theorem map_fst_popEntry_sublist (key : κ) (entries : List (κ × List α)) :
    ((popEntry key entries).map Prod.fst).Sublist (entries.map Prod.fst) := by
  induction entries with
  | nil => exact List.Sublist.refl _
  | cons e entries ih =>
      obtain ⟨k, values⟩ := e
      rw [popEntry]
      split
      · split
        · exact List.sublist_cons_self _ _
        · exact List.Sublist.refl _
      · exact ih.cons_cons k

end Bindings

structure Bindings (κ α : Type) where
  entries : List (κ × List α)
  distinct : (entries.map Prod.fst).Nodup

namespace Bindings

def empty : Bindings κ α := ⟨[], List.nodup_nil⟩

instance : EmptyCollection (Bindings κ α) := ⟨empty⟩

/-- All values of a key, the innermost first. -/
def stack? (b : Bindings κ α) (key : κ) : Option (List α) :=
  (b.entries.find? (·.1 = key)).map (·.2)

def stack (b : Bindings κ α) (key : κ) : List α := (b.stack? key).getD []

def depth (b : Bindings κ α) (key : κ) : Nat := (b.stack key).length

/-- The innermost value of a key. -/
def top? (b : Bindings κ α) (key : κ) : Option α := (b.stack key).head?

def push (b : Bindings κ α) (key : κ) (value : α) : Bindings κ α where
  entries := pushEntry key value b.entries
  distinct := by
    rw [map_fst_pushEntry]
    split
    · exact b.distinct
    · next h => exact List.nodup_append.2 ⟨b.distinct, by simp, by
        intro x hx y hy e
        exact h (by simp_all)⟩

/-- Takes the innermost value of a key away, if it has one. -/
def pop (b : Bindings κ α) (key : κ) : Bindings κ α where
  entries := popEntry key b.entries
  distinct := (map_fst_popEntry_sublist key b.entries).nodup b.distinct

end Bindings

end StackCalc
