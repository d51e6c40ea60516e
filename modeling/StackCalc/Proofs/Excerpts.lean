import Mathlib.Data.List.TakeWhile
import StackCalc.Proofs.Locations
import StackCalc.Text.Report

/-!
# Carets under a span

The line that an excerpt shows is cut where the span begins and where it ends. Each piece is shown
as wide as its columns are counted, so the carets stand under the middle piece. The report can be
made by cutting the text at byte offsets; none of its cuts is inside a character or out of order.
-/

namespace StackCalc

namespace Text

variable {text above lead tail below line returns : List Char} {offset start stop : Nat}

/-- The line around a position, cut there, with what is above and below the line. -/
structure LineAt (text : List Char) (offset : Nat) (above lead tail below : List Char) : Prop where
  text_eq : text = above ++ (lead ++ (tail ++ below))
  offset_eq : byteLength (above ++ lead) = offset
  whole : WholeLines above
  unbroken : '\n' ∉ lead ++ tail
  ends : below = [] ∨ ∃ rest, below = '\n' :: rest

theorem exists_lineAt (h : IsBoundary text offset) :
    ∃ above lead tail below, LineAt text offset above lead tail below := by
  obtain ⟨before, after, rfl, rfl⟩ := h
  obtain ⟨above, lead, rfl, habove, hlead⟩ := exists_lines before
  have hafter := List.takeWhile_append_dropWhile (p := (· != '\n')) (l := after)
  refine ⟨above, lead, after.takeWhile (· != '\n'), after.dropWhile (· != '\n'), ?_⟩
  constructor
  · rw [hafter, List.append_assoc]
  · rfl
  · exact habove
  · rw [List.mem_append, not_or]
    exact ⟨hlead, fun hfeed => by simpa using List.mem_takeWhile_imp hfeed⟩
  · cases hrest : after.dropWhile (· != '\n') with
    | nil => exact .inl rfl
    | cons c rest =>
        have hc := List.head?_dropWhile_not (· != '\n') after
        rw [hrest] at hc
        have heq : c = '\n' := by simpa using hc
        exact .inr ⟨rest, by rw [heq]⟩

theorem exists_returns (line : List Char) : ∃ returns, line = trimReturns line ++ returns ∧
    (∀ c ∈ returns, c = '\r') ∧ (trimReturns line).getLast? ≠ some '\r' := by
  have hline := List.takeWhile_append_dropWhile (p := (· == '\r')) (l := line.reverse)
  refine ⟨(line.reverse.takeWhile (· == '\r')).reverse, ?_, ?_, ?_⟩
  · rw [trimReturns, ← List.reverse_append, hline, List.reverse_reverse]
  · intro c hc
    simpa using List.mem_takeWhile_imp (List.mem_reverse.1 hc)
  · rw [trimReturns, List.getLast?_reverse]
    intro hhead
    have hnot := List.head?_dropWhile_not (· == '\r') line.reverse
    rw [hhead] at hnot
    cases hnot

theorem expandTabs_append (s t : List Char) : expandTabs (s ++ t) = expandTabs s ++ expandTabs t :=
  List.flatMap_append

theorem expandTabs_singleton {c : Char} (h : c ≠ '\t') : expandTabs [c] = [c] := by
  rw [expandTabs, List.flatMap_singleton, if_neg h]

theorem length_expandTabs_pos (h : line ≠ []) : 0 < (expandTabs line).length := by
  obtain ⟨c, rest, rfl⟩ := List.exists_cons_of_ne_nil h
  rw [expandTabs, List.flatMap_cons, List.length_append]
  by_cases hc : c = '\t'
  · rw [if_pos hc, List.length_replicate, tabWidth]
    omega
  · rw [if_neg hc, List.length_singleton]
    omega

/-- What is left of the line behind the position, once its end is trimmed. -/
def shownBehind (lead tail line : List Char) : List Char := tail.take (line.length - lead.length)

/-- The position is in the trimmed line, or in what was trimmed away. -/
theorem shownBehind_cases (h : lead ++ tail = line ++ returns) :
    (line = lead ++ shownBehind lead tail line ∧ tail = shownBehind lead tail line ++ returns) ∨
      ∃ c rest, lead = line ++ c :: rest ∧ shownBehind lead tail line = [] := by
  obtain ⟨shown, rfl, rfl⟩ | ⟨rest, rfl, hreturns⟩ := List.append_eq_append_iff.1 h
  · have hshown : shownBehind lead (shown ++ returns) (lead ++ shown) = shown := by
      rw [shownBehind, List.length_append, Nat.add_sub_cancel_left, List.take_left]
    exact .inl (by rw [hshown]; exact ⟨rfl, rfl⟩)
  · have hnone : shownBehind (line ++ rest) tail line = [] := by
      rw [shownBehind, List.length_append, Nat.sub_eq_zero_of_le (Nat.le_add_right _ _),
        List.take_zero]
    cases rest with
    | nil => exact .inl (by rw [hnone]; simpa using hreturns.symm)
    | cons c rest => exact .inr ⟨c, rest, rfl, hnone⟩

theorem shownBehind_isPrefix (lead tail line : List Char) : shownBehind lead tail line <+: tail :=
  List.take_prefix _ _

theorem max_shownBehind (h : lead ++ tail = line ++ returns) (above : List Char) :
    max (byteLength above + byteLength line) (byteLength (above ++ lead)) =
      byteLength (above ++ lead) + byteLength (shownBehind lead tail line) := by
  obtain ⟨hline, -⟩ | ⟨c, rest, hlead, hnone⟩ := shownBehind_cases h
  · have hlength := congrArg byteLength hline
    rw [byteLength_append] at hlength ⊢
    omega
  · rw [hnone, hlead]
    simp only [byteLength_append, byteLength_nil]
    omega

/-- A stop is moved behind the start, and before the end of what is shown. -/
theorem clamp_floorBoundary (before shown after : List Char) (stop : Nat) :
    max (byteLength before) (min (floorBoundary (before ++ (shown ++ after)) stop)
        (byteLength before + byteLength shown)) =
      byteLength (before ++ takeBytes (stop - byteLength before) shown) := by
  rw [floorBoundary_eq, byteLength_append]
  by_cases hbefore : byteLength before ≤ stop
  · rw [takeBytes_append_of_le hbefore, byteLength_append]
    by_cases hshown : byteLength shown ≤ stop - byteLength before
    · rw [takeBytes_append_of_le hshown, takeBytes_of_le hshown, byteLength_append]
      omega
    · have hsame : takeBytes (stop - byteLength before) (shown ++ after) =
          takeBytes (stop - byteLength before) shown := by
        have hle := byteLength_takeBytes_le (stop - byteLength before) (shown ++ after)
        have hle' := byteLength_takeBytes_le (stop - byteLength before) shown
        obtain ⟨rest, hrest⟩ := takeBytes_isPrefix (stop - byteLength before) shown
        have hpart := isPrefix_takeBytes hle' (rest ++ after)
        rw [← List.append_assoc, hrest] at hpart
        have hinside : takeBytes (stop - byteLength before) (shown ++ after) <+: shown := by
          apply isPrefix_of_byteLength_le (takeBytes_isPrefix _ _) (List.prefix_append _ _)
          omega
        obtain ⟨rest', hrest'⟩ := hinside
        have hback := isPrefix_takeBytes hle rest'
        rw [hrest'] at hback
        exact hback.eq_of_length_le hpart.length_le
      have hle := byteLength_takeBytes_le (stop - byteLength before) shown
      rw [hsame]
      omega
  · have hle := byteLength_takeBytes_le stop (before ++ (shown ++ after))
    have hnone : stop - byteLength before = 0 := by omega
    have hzero := byteLength_takeBytes_le 0 shown
    rw [hnone]
    omega

/-- Where the first line feed is. -/
def firstFeed? : List Char → Option Nat
  | [] => none
  | c :: rest => if c = '\n' then some 0 else (firstFeed? rest).map (c.utf8Size + ·)

theorem firstFeed?_append (h : '\n' ∉ line) (below : List Char) :
    firstFeed? (line ++ below) = (firstFeed? below).map (byteLength line + ·) := by
  induction line with
  | nil => simp
  | cons c line ih =>
      rw [List.mem_cons, not_or] at h
      rw [List.cons_append, firstFeed?, if_neg (Ne.symm h.1), ih h.2, Option.map_map,
        byteLength_cons]
      congr 1
      funext n
      exact (Nat.add_assoc _ _ _).symm

/-- The offset of the first line feed behind an offset, or the end of the text. -/
def lineStop? (text : List Char) (start : Nat) : Option Nat := do
  let behind ← slice? text start (byteLength text)
  match firstFeed? behind with
  | some feed => return start + feed
  | none => return byteLength text

theorem lineStop?_eq (hline : '\n' ∉ line) (hbelow : below = [] ∨ ∃ rest, below = '\n' :: rest)
    (above : List Char) : lineStop? (above ++ (line ++ below)) (byteLength above) =
      some (byteLength (above ++ line)) := by
  have hbehind : slice? (above ++ (line ++ below)) (byteLength above)
      (byteLength (above ++ (line ++ below))) = some (line ++ below) :=
    slice?_eq_some_iff.2 ⟨above, [], by simp, rfl, rfl⟩
  rw [lineStop?, hbehind, Option.bind_eq_bind, Option.bind_some, firstFeed?_append hline]
  obtain rfl | ⟨rest, rfl⟩ := hbelow
  · rw [firstFeed?, List.append_nil]
    rfl
  · rw [firstFeed?, if_pos rfl, Option.map_some, Nat.add_zero]
    exact congrArg some (byteLength_append above line).symm

/-- A number moved between two bounds, which have to be in order. -/
def clamp? (n low high : Nat) : Option Nat :=
  if low ≤ high then some (max low (min n high)) else none

namespace LineAt

variable (h : LineAt text offset above lead tail below)
include h

theorem not_mem_lead : '\n' ∉ lead := fun hmem => h.unbroken (List.mem_append_left _ hmem)

theorem not_mem_tail : '\n' ∉ tail := fun hmem => h.unbroken (List.mem_append_right _ hmem)

theorem lineStart?_eq : lineStart? text offset = some (byteLength above) := by
  rw [h.text_eq, ← h.offset_eq]
  exact Text.lineStart?_eq h.whole h.not_mem_lead (tail ++ below)

theorem lineStop?_eq :
    lineStop? text (byteLength above) = some (byteLength (above ++ (lead ++ tail))) := by
  rw [h.text_eq, ← List.append_assoc lead]
  exact Text.lineStop?_eq h.unbroken h.ends above

theorem slice?_line : slice? text (byteLength above) (byteLength (above ++ (lead ++ tail))) =
    some (lead ++ tail) :=
  slice?_eq_some_iff.2 ⟨above, below, by rw [h.text_eq, List.append_assoc], rfl, rfl⟩

theorem slice?_lead : slice? text (byteLength above) offset = some lead :=
  slice?_eq_some_iff.2 ⟨above, tail ++ below, h.text_eq, rfl, h.offset_eq⟩

theorem text_eq_shownBehind (line : List Char) : ∃ rest,
    text = above ++ lead ++ (shownBehind lead tail line ++ rest) := by
  obtain ⟨rest, hrest⟩ := shownBehind_isPrefix lead tail line
  refine ⟨rest ++ below, ?_⟩
  rw [← List.append_assoc _ rest, hrest, h.text_eq, List.append_assoc]

theorem clamp?_stop (hline : lead ++ tail = line ++ returns) (stop : Nat) :
    clamp? (floorBoundary text stop) offset (max (byteLength above + byteLength line) offset) =
      some (byteLength (above ++ lead ++
        takeBytes (stop - offset) (shownBehind lead tail line))) := by
  obtain ⟨rest, htext⟩ := h.text_eq_shownBehind line
  rw [← h.offset_eq, max_shownBehind hline, clamp?, if_pos (Nat.le_add_right _ _), htext,
    clamp_floorBoundary]

theorem slice?_covered (line : List Char) (stop : Nat) :
    slice? text offset (byteLength (above ++ lead ++
      takeBytes (stop - offset) (shownBehind lead tail line))) =
        some (takeBytes (stop - offset) (shownBehind lead tail line)) := by
  obtain ⟨rest, htext⟩ := h.text_eq_shownBehind line
  obtain ⟨behind, hbehind⟩ := takeBytes_isPrefix (stop - offset) (shownBehind lead tail line)
  refine slice?_eq_some_iff.2 ⟨above ++ lead, behind ++ rest, ?_, h.offset_eq, rfl⟩
  rw [← List.append_assoc _ behind, hbehind, htext]

end LineAt

end Text

open Text

variable {text above lead tail below line returns : List Char} {span : Span}

theorem Text.LineAt.takeBytes_eq
    (h : LineAt text (floorBoundary text span.start) above lead tail below) :
    takeBytes span.start text = above ++ lead := by
  have hlength := h.offset_eq
  have htext := h.text_eq
  rw [← List.append_assoc] at htext
  rw [floorBoundary_eq] at hlength
  have hpart := isPrefix_of_byteLength_le (takeBytes_isPrefix span.start text)
    ⟨tail ++ below, htext.symm⟩ hlength.ge
  have hpart' := isPrefix_of_byteLength_le ⟨tail ++ below, htext.symm⟩
    (takeBytes_isPrefix span.start text) hlength.le
  exact hpart.eq_of_length_le hpart'.length_le

namespace Excerpt

/-- The excerpt, told from the line that the span begins in. -/
theorem of_eq (h : LineAt text (floorBoundary text span.start) above lead tail below) :
    Excerpt.of text span = ⟨expandTabs (trimReturns (lead ++ tail)), (expandTabs lead).length,
      max 1 (expandTabs (takeBytes (span.stop - floorBoundary text span.start)
        (shownBehind lead tail (trimReturns (lead ++ tail))))).length⟩ := by
  have hbehind : text.drop (above ++ lead).length = tail ++ below := by
    rw [h.text_eq, ← List.append_assoc, List.drop_left]
  have hline : (tail ++ below).takeWhile (· != '\n') = tail := by
    have hall : ∀ c ∈ tail, (c != '\n') = true := by
      intro c hc
      rw [bne_iff_ne]
      rintro rfl
      exact h.not_mem_tail hc
    rw [List.takeWhile_append_of_pos hall]
    obtain rfl | ⟨rest, rfl⟩ := h.ends <;> simp
  rw [Excerpt.of, h.takeBytes_eq, lastLine_append h.whole h.not_mem_lead, hbehind, hline,
    h.offset_eq, shownBehind]

/-- The excerpt, made by cutting the text at byte offsets. -/
def onBytes? (text : List Char) (span : Span) : Option Excerpt := do
  let start := floorBoundary text span.start
  let lineStart ← lineStart? text start
  let lineStop ← lineStop? text lineStart
  let line := trimReturns (← slice? text lineStart lineStop)
  let limit := max (lineStart + byteLength line) start
  let stop ← clamp? (floorBoundary text span.stop) start limit
  let lead ← slice? text lineStart start
  let covered ← slice? text start stop
  return ⟨expandTabs line, (expandTabs lead).length, max 1 (expandTabs covered).length⟩

theorem onBytes?_eq (text : List Char) (span : Span) :
    onBytes? text span = some (Excerpt.of text span) := by
  obtain ⟨above, lead, tail, below, h⟩ :=
    exists_lineAt (isGreatest_floorBoundary text span.start).1.1
  obtain ⟨returns, hreturns, -, -⟩ := exists_returns (lead ++ tail)
  rw [of_eq h, onBytes?]
  simp only [h.lineStart?_eq, h.lineStop?_eq, h.slice?_line, h.clamp?_stop hreturns, h.slice?_lead,
    h.slice?_covered, Option.bind_eq_bind, Option.bind_some]
  rfl

end Excerpt

namespace Report

/-- The report, made by cutting the text at byte offsets. -/
def onBytes? (stage : Stage) (message : String) (text : List Char) (span : Span) :
    Option String := do
  let location ← Location.locate? text (floorBoundary text span.start)
  let excerpt ← Excerpt.onBytes? text span
  return s!"{stage.errorName}({location.text}): {message}\n" ++ excerpt.text

theorem onBytes?_eq (stage : Stage) (message : String) (text : List Char) (span : Span) :
    onBytes? stage message text span = some (onText stage message text span) := by
  have hlocation := Location.locate?_eq text (floorBoundary text span.start)
  rw [← Location.of_eq_of_isGreatest (isGreatest_floorBoundary text span.start)] at hlocation
  rw [onBytes?, hlocation, Excerpt.onBytes?_eq]
  rfl

/-- Expanding tabs shows each as four spaces and any other character as itself, one character after
another. No cut is made inside a character, whatever the ends of the span. The line of the start is
echoed, expanded, without the carriage returns it ends with. Where the start is in what is echoed,
the carets stand under the part of the span that is on the line, or are one at its column if that
is empty. -/
theorem carets_under_span (stage : Stage) (message : String) (text : List Char) (span : Span) :
    expandTabs ['\t'] = [' ', ' ', ' ', ' '] ∧ (∀ c, c ≠ '\t' → expandTabs [c] = [c]) ∧
    (∀ s t, expandTabs (s ++ t) = expandTabs s ++ expandTabs t) ∧
    onBytes? stage message text span = some (onText stage message text span) ∧
    ∃ above lead tail below line returns indent width,
      LineAt text (floorBoundary text span.start) above lead tail below ∧
      lead ++ tail = line ++ returns ∧ (∀ c ∈ returns, c = '\r') ∧
      line.getLast? ≠ some '\r' ∧
      onText stage message text span =
        stage.errorName ++ "(" ++ (Location.of text span.start).text ++ "): " ++ message ++ "\n" ++
          String.ofList (expandTabs line ++ ['\n'] ++
            (List.replicate indent ' ' ++ List.replicate width '^') ++ ['\n']) ∧
      (floorBoundary text span.start ≤ byteLength (above ++ line) → ∃ part rest,
        line = lead ++ (part ++ rest) ∧
        byteLength (above ++ lead ++ part) = max (floorBoundary text span.start)
          (min (floorBoundary text span.stop) (byteLength (above ++ line))) ∧
        expandTabs line = expandTabs lead ++ (expandTabs part ++ expandTabs rest) ∧
        indent = (expandTabs lead).length ∧
        (part ≠ [] → width = (expandTabs part).length) ∧ (part = [] → width = 1)) := by
  obtain ⟨above, lead, tail, below, h⟩ :=
    exists_lineAt (isGreatest_floorBoundary text span.start).1.1
  obtain ⟨returns, hreturns, hall, hlast⟩ := exists_returns (lead ++ tail)
  have hexcerpt := Excerpt.of_eq h
  generalize trimReturns (lead ++ tail) = line at *
  refine ⟨rfl, fun c => expandTabs_singleton, expandTabs_append,
    onBytes?_eq stage message text span, above, lead, tail, below, line, returns,
    (Excerpt.of text span).indent, (Excerpt.of text span).width, h, hreturns, hall, hlast, ?_,
    fun hstart => ?_⟩
  · rw [onText, Excerpt.text, hexcerpt]
    simp [toString]
  · rw [hexcerpt]
    obtain ⟨hline, -⟩ | ⟨c, rest, rfl, -⟩ := shownBehind_cases hreturns
    · obtain ⟨behind, htext⟩ := h.text_eq_shownBehind line
      generalize shownBehind lead tail line = shown at *
      obtain ⟨rest, hrest⟩ := takeBytes_isPrefix (span.stop - floorBoundary text span.start) shown
      have hclamp := clamp_floorBoundary (above ++ lead) shown behind span.stop
      have hend : byteLength (above ++ line) = byteLength (above ++ lead) + byteLength shown := by
        rw [hline, ← List.append_assoc, byteLength_append]
      rw [← htext, ← hend, h.offset_eq] at hclamp
      generalize takeBytes (span.stop - floorBoundary text span.start) shown = part at *
      refine ⟨part, rest, by rw [hrest, hline], hclamp.symm, ?_, rfl, fun hpart => ?_, ?_⟩
      · rw [← expandTabs_append, hrest, ← expandTabs_append, ← hline]
      · exact Nat.max_eq_right (length_expandTabs_pos hpart)
      · rintro rfl
        rfl
    · -- the start would be in the carriage returns that were trimmed
      have hpos := c.utf8Size_pos
      rw [← h.offset_eq] at hstart
      simp only [byteLength_append, byteLength_cons] at hstart
      omega

end Report

end StackCalc
