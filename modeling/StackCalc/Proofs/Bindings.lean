import StackCalc.Machine.Bindings

/-!
# Laws of bindings

Adding a value to a key and taking one away are seen in the stack of that key alone. Values that
are taken away newest first leave the bindings as they were before, entry by entry, provided that
no key was kept without a value.
-/

namespace StackCalc.Bindings

variable {κ α : Type}

theorem eq_of_entries {b b' : Bindings κ α} (h : b.entries = b'.entries) : b = b' := by
  cases b
  cases b'
  simp_all

/-- No key is kept without a value. -/
def Proper (b : Bindings κ α) : Prop := ∀ e ∈ b.entries, e.2 ≠ []

theorem proper_empty : (∅ : Bindings κ α).Proper := by
  intro e he
  cases he

variable [DecidableEq κ]

theorem find?_pushEntry (key key' : κ) (value : α) (entries : List (κ × List α)) :
    (((pushEntry key value entries).find? (·.1 = key')).map (·.2)).getD [] =
      if key' = key then value :: ((entries.find? (·.1 = key')).map (·.2)).getD []
      else ((entries.find? (·.1 = key')).map (·.2)).getD [] := by
  induction entries with
  | nil =>
      by_cases h : key = key'
      · simp [pushEntry, h]
      · simp [pushEntry, h, Ne.symm h]
  | cons e entries ih =>
      obtain ⟨k, values⟩ := e
      by_cases hk : k = key
      · by_cases h : key = key'
        · simp [pushEntry, hk, h]
        · simp [pushEntry, hk, h, Ne.symm h]
      · by_cases h : k = key'
        · have hne : ¬ key' = key := fun e => hk (h.trans e)
          simp [pushEntry, h, hne]
        · simpa [pushEntry, hk, h] using ih

theorem find?_popEntry (key key' : κ) (entries : List (κ × List α))
    (hd : (entries.map Prod.fst).Nodup) :
    (((popEntry key entries).find? (·.1 = key')).map (·.2)).getD [] =
      if key' = key then (((entries.find? (·.1 = key')).map (·.2)).getD []).tail
      else ((entries.find? (·.1 = key')).map (·.2)).getD [] := by
  induction entries with
  | nil => simp [popEntry]
  | cons e entries ih =>
      obtain ⟨k, values⟩ := e
      obtain ⟨hnot, hd⟩ := List.nodup_cons.1 hd
      by_cases hk : k = key
      · subst hk
        have hnone : entries.find? (·.1 = k) = none := by
          rw [List.find?_eq_none]
          intro e he h
          exact hnot (List.mem_map.2 ⟨e, he, by simpa using h⟩)
        by_cases h : key' = k
        · subst h
          cases hv : values.tail <;> simp [popEntry, hv, hnone]
        · cases hv : values.tail <;> simp [popEntry, hv, h, Ne.symm h]
      · by_cases h : k = key'
        · have hne : ¬ key' = key := fun e => hk (h.trans e)
          simp [popEntry, h, hne]
        · simpa [popEntry, hk, h] using ih hd

theorem stack_empty (key : κ) : (∅ : Bindings κ α).stack key = [] := rfl

theorem stack_push (b : Bindings κ α) (key key' : κ) (value : α) :
    (b.push key value).stack key' = if key' = key then value :: b.stack key' else b.stack key' :=
  find?_pushEntry key key' value b.entries

theorem stack_pop (b : Bindings κ α) (key key' : κ) :
    (b.pop key).stack key' = if key' = key then (b.stack key').tail else b.stack key' :=
  find?_popEntry key key' b.entries b.distinct

theorem stack?_ne_none {b : Bindings κ α} {key : κ} (h : b.stack key ≠ []) :
    ∃ values, b.stack? key = some values := by
  cases hs : b.stack? key with
  | none => simp [stack, hs] at h
  | some values => exact ⟨values, rfl⟩

theorem Proper.push {b : Bindings κ α} (h : b.Proper) (key : κ) (value : α) :
    (b.push key value).Proper := by
  have hall (entries : List (κ × List α)) (he : ∀ e ∈ entries, e.2 ≠ []) :
      ∀ e ∈ pushEntry key value entries, e.2 ≠ [] := by
    induction entries with
    | nil => simp [pushEntry]
    | cons e entries ih =>
        obtain ⟨k, values⟩ := e
        by_cases hk : k = key
        · simpa [pushEntry, hk] using fun a b hb => he (a, b) (by simp [hb])
        · have := ih fun e hm => he e (by simp [hm])
          have hv := he (k, values) (by simp)
          simpa [pushEntry, hk] using ⟨hv, fun a b hb => this (a, b) hb⟩
  exact hall b.entries h

theorem Proper.pop {b : Bindings κ α} (h : b.Proper) (key : κ) : (b.pop key).Proper := by
  have hall (entries : List (κ × List α)) (he : ∀ e ∈ entries, e.2 ≠ []) :
      ∀ e ∈ popEntry key entries, e.2 ≠ [] := by
    induction entries with
    | nil => simp [popEntry]
    | cons e entries ih =>
        obtain ⟨k, values⟩ := e
        obtain ⟨hv, hrest⟩ := List.forall_mem_cons.1 he
        by_cases hk : k = key
        · rw [popEntry, if_pos hk]
          cases values.tail with
          | nil => exact hrest
          | cons v vs => exact List.forall_mem_cons.2 ⟨List.cons_ne_nil v vs, hrest⟩
        · rw [popEntry, if_neg hk]
          exact List.forall_mem_cons.2 ⟨hv, ih hrest⟩
  exact hall b.entries h

theorem Proper.stack_ne_nil {b : Bindings κ α} (h : b.Proper) {key : κ} {values : List α}
    (hs : b.stack? key = some values) : b.stack key ≠ [] := by
  rw [stack, hs, Option.getD_some]
  obtain ⟨e, hfound, rfl⟩ := Option.map_eq_some_iff.1 hs
  exact h e (List.mem_of_find?_eq_some hfound)

theorem Proper.stack?_eq_none_iff {b : Bindings κ α} (h : b.Proper) (key : κ) :
    b.stack? key = none ↔ b.stack key = [] := by
  cases hs : b.stack? key with
  | none => simp [stack, hs]
  | some values => exact iff_of_false nofun (h.stack_ne_nil hs)

theorem pop_push {b : Bindings κ α} (h : b.Proper) (key : κ) (value : α) :
    (b.push key value).pop key = b := by
  have hall (entries : List (κ × List α)) (he : ∀ e ∈ entries, e.2 ≠ []) :
      popEntry key (pushEntry key value entries) = entries := by
    induction entries with
    | nil => simp [pushEntry, popEntry]
    | cons e entries ih =>
        obtain ⟨k, values⟩ := e
        by_cases hk : k = key
        · have hv : values ≠ [] := he (k, values) (by simp)
          cases values with
          | nil => exact absurd rfl hv
          | cons v vs => simp [pushEntry, popEntry, hk]
        · simpa [pushEntry, popEntry, hk] using ih fun e hm => he e (by simp [hm])
  exact eq_of_entries (hall b.entries h)

/-- Adds values one after another, the last one of the list first. -/
def pushAll (b : Bindings κ α) : List (κ × α) → Bindings κ α
  | [] => b
  | (key, value) :: added => (b.pushAll added).push key value

/-- Takes away one value of each key, one after another. -/
def popAll (b : Bindings κ α) : List κ → Bindings κ α
  | [] => b
  | key :: keys => (b.pop key).popAll keys

theorem pushAll_append (b : Bindings κ α) (new old : List (κ × α)) :
    b.pushAll (new ++ old) = (b.pushAll old).pushAll new := by
  induction new with
  | nil => rfl
  | cons e new ih =>
      obtain ⟨key, value⟩ := e
      simp only [List.cons_append, pushAll, ih]

theorem Proper.pushAll {b : Bindings κ α} (h : b.Proper) (added : List (κ × α)) :
    (b.pushAll added).Proper := by
  induction added with
  | nil => exact h
  | cons e added ih => exact ih.push e.1 e.2

theorem popAll_pushAll {b : Bindings κ α} (h : b.Proper) (added : List (κ × α)) :
    (b.pushAll added).popAll (added.map Prod.fst) = b := by
  induction added with
  | nil => rfl
  | cons e added ih =>
      obtain ⟨key, value⟩ := e
      simp only [Bindings.pushAll, List.map_cons, popAll]
      rw [pop_push (h.pushAll added), ih]

theorem stack_pushAll (b : Bindings κ α) (added : List (κ × α)) (key : κ) :
    (b.pushAll added).stack key = (added.filter (·.1 = key)).map Prod.snd ++ b.stack key := by
  induction added with
  | nil => rfl
  | cons e added ih =>
      obtain ⟨k, value⟩ := e
      rw [pushAll, stack_push, ih]
      by_cases h : key = k
      · simp [h]
      · simp [h, Ne.symm h]

end StackCalc.Bindings
