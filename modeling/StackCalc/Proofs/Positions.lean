import Mathlib.Order.Bounds.Basic
import StackCalc.Text.Span

/-!
# Positions in a text

A text can be cut between two of its characters and at its ends. A slice between two offsets
exists only if it can be cut at both; any offset is taken for the last such place that is not
behind it, which is found by going down from it. A span shows the slice between its ends.
-/

namespace StackCalc.Text

variable {text before after : List Char} {offset : Nat}

/-- An end of the text, or a place between two of its characters. -/
def IsBoundary (text : List Char) (offset : Nat) : Prop :=
  ∃ before after, text = before ++ after ∧ byteLength before = offset

theorem isBoundary_byteLength (before after : List Char) :
    IsBoundary (before ++ after) (byteLength before) := ⟨before, after, rfl, rfl⟩

theorem isBoundary_takeBytes (offset : Nat) (text : List Char) :
    IsBoundary text (byteLength (takeBytes offset text)) := by
  obtain ⟨after, h⟩ := takeBytes_isPrefix offset text
  exact ⟨_, after, h.symm, rfl⟩

theorem isPrefix_takeBytes (h : byteLength before ≤ offset) (after : List Char) :
    before <+: takeBytes offset (before ++ after) := by
  induction before generalizing offset with
  | nil => exact List.nil_prefix
  | cons c before ih =>
      rw [byteLength_cons] at h
      have hrest : byteLength before ≤ offset - c.utf8Size := by omega
      have hc : c.utf8Size ≤ offset := by omega
      rw [List.cons_append, takeBytes, if_pos hc, List.cons_prefix_cons]
      exact ⟨rfl, ih hrest⟩

theorem byteLength_le_of_isPrefix (h : before <+: text) : byteLength before ≤ byteLength text := by
  obtain ⟨after, rfl⟩ := h
  rw [byteLength_append]
  omega

theorem byteLength_pos (h : text ≠ []) : 0 < byteLength text := by
  obtain ⟨c, rest, rfl⟩ := List.exists_cons_of_ne_nil h
  have hpos := c.utf8Size_pos
  rw [byteLength_cons]
  omega

/-- The place that an offset is taken for. -/
theorem isGreatest_takeBytes (offset : Nat) (text : List Char) :
    IsGreatest {o | IsBoundary text o ∧ o ≤ offset} (byteLength (takeBytes offset text)) := by
  constructor
  · exact ⟨isBoundary_takeBytes offset text, byteLength_takeBytes_le offset text⟩
  · rintro o ⟨⟨before, after, rfl, rfl⟩, hle⟩
    exact byteLength_le_of_isPrefix (isPrefix_takeBytes hle after)

theorem isBoundary_iff : IsBoundary text offset ↔ byteLength (takeBytes offset text) = offset := by
  constructor
  · intro h
    exact Nat.le_antisymm (byteLength_takeBytes_le offset text)
      ((isGreatest_takeBytes offset text).2 ⟨h, Nat.le_refl _⟩)
  · intro h
    exact h ▸ isBoundary_takeBytes offset text

instance : Decidable (IsBoundary text offset) := decidable_of_iff' _ isBoundary_iff

theorem IsBoundary.le (h : IsBoundary text offset) : offset ≤ byteLength text := by
  obtain ⟨before, after, rfl, rfl⟩ := h
  exact byteLength_le_of_isPrefix (List.prefix_append _ _)

theorem isPrefix_of_byteLength_le {before' : List Char} (h : before <+: text)
    (h' : before' <+: text) (hle : byteLength before ≤ byteLength before') : before <+: before' := by
  obtain ⟨after, rfl⟩ := h
  obtain ⟨after', hafter⟩ := h'
  have hpart := isPrefix_takeBytes hle after
  rwa [← hafter, takeBytes_byteLength_append] at hpart

theorem takeBytes_of_le (h : byteLength text ≤ offset) : takeBytes offset text = text := by
  have hpart := isPrefix_takeBytes h []
  rw [List.append_nil] at hpart
  exact (hpart.eq_of_length_le (takeBytes_isPrefix offset text).length_le).symm

theorem takeBytes_append_of_le (h : byteLength before ≤ offset) (after : List Char) :
    takeBytes offset (before ++ after) =
      before ++ takeBytes (offset - byteLength before) after := by
  induction before generalizing offset with
  | nil => rfl
  | cons c before ih =>
      rw [byteLength_cons] at h ⊢
      have hrest : byteLength before ≤ offset - c.utf8Size := by omega
      have hc : c.utf8Size ≤ offset := by omega
      rw [List.cons_append, takeBytes, if_pos hc, ih hrest, List.cons_append, Nat.sub_sub]

/-- Goes down from an offset to the first place where the text can be cut. -/
def boundaryFrom (text : List Char) : Nat → Nat
  | 0 => 0
  | offset + 1 => if IsBoundary text (offset + 1) then offset + 1 else boundaryFrom text offset

/-- Where the text is cut for an offset, be it inside a character or behind the text. -/
def floorBoundary (text : List Char) (offset : Nat) : Nat :=
  boundaryFrom text (min offset (byteLength text))

theorem isGreatest_boundaryFrom (text : List Char) (offset : Nat) :
    IsGreatest {o | IsBoundary text o ∧ o ≤ offset} (boundaryFrom text offset) := by
  induction offset with
  | zero =>
      rw [boundaryFrom]
      exact ⟨⟨⟨[], text, rfl, rfl⟩, Nat.le_refl _⟩, fun o ho => ho.2⟩
  | succ offset ih =>
      rw [boundaryFrom]
      by_cases h : IsBoundary text (offset + 1)
      · rw [if_pos h]
        exact ⟨⟨h, Nat.le_refl _⟩, fun o ho => ho.2⟩
      · rw [if_neg h]
        refine ⟨⟨ih.1.1, Nat.le_succ_of_le ih.1.2⟩, fun o ho => ih.2 ⟨ho.1, ?_⟩⟩
        have hne : o ≠ offset + 1 := fun heq => h (heq ▸ ho.1)
        have hle : o ≤ offset + 1 := ho.2
        omega

/-- The search ends at the last place that is not behind the offset. -/
theorem isGreatest_floorBoundary (text : List Char) (offset : Nat) :
    IsGreatest {o | IsBoundary text o ∧ o ≤ offset} (floorBoundary text offset) := by
  obtain ⟨⟨hboundary, hle⟩, hgreatest⟩ :=
    isGreatest_boundaryFrom text (min offset (byteLength text))
  refine ⟨⟨hboundary, Nat.le_trans hle (Nat.min_le_left _ _)⟩, fun o ho => ?_⟩
  exact hgreatest ⟨ho.1, Nat.le_min.2 ⟨ho.2, ho.1.le⟩⟩

theorem floorBoundary_eq (text : List Char) (offset : Nat) :
    floorBoundary text offset = byteLength (takeBytes offset text) :=
  (isGreatest_floorBoundary text offset).unique (isGreatest_takeBytes offset text)

/-- The part of a text from one offset up to another. There is none unless the text can be cut at
both and they are in order. -/
def slice? (text : List Char) (start stop : Nat) : Option (List Char) :=
  if IsBoundary text start ∧ IsBoundary text stop ∧ start ≤ stop then
    some ((takeBytes stop text).drop (takeBytes start text).length)
  else none

theorem slice?_eq_some_iff {start stop : Nat} {slice : List Char} :
    slice? text start stop = some slice ↔ ∃ before after, text = before ++ (slice ++ after) ∧
      byteLength before = start ∧ byteLength (before ++ slice) = stop := by
  constructor
  · intro h
    rw [slice?, Option.ite_none_right_eq_some] at h
    obtain ⟨⟨hstart, hstop, hle⟩, hslice⟩ := h
    rw [isBoundary_iff] at hstart hstop
    obtain ⟨after, hafter⟩ := takeBytes_isPrefix stop text
    have hpart : takeBytes start text <+: takeBytes stop text := by
      apply isPrefix_of_byteLength_le (takeBytes_isPrefix start text) (takeBytes_isPrefix stop text)
      omega
    obtain ⟨middle, hmiddle⟩ := hpart
    rw [← hmiddle, List.drop_left, Option.some_inj] at hslice
    subst hslice
    refine ⟨takeBytes start text, after, ?_, hstart, ?_⟩
    · rw [← List.append_assoc, hmiddle, hafter]
    · rw [hmiddle, hstop]
  · rintro ⟨before, after, rfl, rfl, rfl⟩
    have hstart := isBoundary_byteLength before (slice ++ after)
    have hstop := isBoundary_byteLength (before ++ slice) after
    rw [List.append_assoc] at hstop
    have hle : byteLength before ≤ byteLength (before ++ slice) :=
      byteLength_le_of_isPrefix (List.prefix_append _ _)
    rw [slice?, if_pos ⟨hstart, hstop, hle⟩, takeBytes_byteLength_append, ← List.append_assoc,
      takeBytes_byteLength_append, List.drop_left]

/-- A span of a text that begins at byte `start`, with what is before it, in it and behind it. -/
structure Cuts (start : Nat) (text : List Char) (span : Span)
    (before slice after : List Char) : Prop where
  text_eq : text = before ++ (slice ++ after)
  start_eq : span.start = start + byteLength before
  stop_eq : span.stop = start + byteLength before + byteLength slice

/-- The span can be cut out of the text and shows this slice. -/
structure Shows (text : List Char) (span : Span) (slice : List Char) : Prop where
  ordered : span.start ≤ span.stop
  inside : span.stop ≤ byteLength text
  start_boundary : IsBoundary text span.start
  stop_boundary : IsBoundary text span.stop
  slice_eq : slice? text span.start span.stop = some slice

section Slices

variable {start : Nat} {slice : List Char} {span : Span}

theorem Cuts.behind (front : List Char)
    (h : Cuts (start + byteLength front) text span before slice after) :
    Cuts start (front ++ text) span (front ++ before) slice after where
  text_eq := by rw [h.text_eq, List.append_assoc]
  start_eq := by rw [h.start_eq, byteLength_append, Nat.add_assoc]
  stop_eq := by rw [h.stop_eq, byteLength_append, Nat.add_assoc start]

theorem Cuts.shows (h : Cuts 0 text span before slice after) : Shows text span slice := by
  obtain ⟨rfl, hstart, hstop⟩ := h
  rw [Nat.zero_add] at hstart hstop
  rw [← byteLength_append] at hstop
  have hboundary := isBoundary_byteLength (before ++ slice) after
  rw [List.append_assoc, ← hstop] at hboundary
  constructor
  case ordered =>
    rw [hstart, hstop, byteLength_append]
    omega
  case inside => exact hboundary.le
  case start_boundary => exact hstart ▸ isBoundary_byteLength before (slice ++ after)
  case stop_boundary => exact hboundary
  case slice_eq => exact slice?_eq_some_iff.2 ⟨before, after, rfl, hstart.symm, hstop.symm⟩

/-- Only an empty span shows nothing. -/
theorem Shows.start_eq_stop_iff (h : Shows text span slice) :
    span.start = span.stop ↔ slice = [] := by
  obtain ⟨before, after, -, hstart, hstop⟩ := slice?_eq_some_iff.1 h.slice_eq
  rw [byteLength_append, hstart] at hstop
  constructor
  · intro heq
    by_contra hne
    have hpos := byteLength_pos hne
    omega
  · rintro rfl
    exact hstop

end Slices

end StackCalc.Text
