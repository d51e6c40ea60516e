import StackCalc.Proofs.Positions
import StackCalc.Text.Location

/-!
# Locations and positions

The location of a position tells the line feeds before it and the characters behind the last of
them. So positions and their locations have the same order, and each location is that of one
position only. Looking for the line backwards from a byte offset finds the same location, without
ever cutting a character.
-/

namespace StackCalc

namespace Text

variable {lines line : List Char}

/-- A text whose last line is finished. -/
def WholeLines (text : List Char) : Prop := text = [] ∨ ∃ front, text = front ++ ['\n']

theorem lastLine_append (hlines : WholeLines lines) (hline : '\n' ∉ line) :
    lastLine (lines ++ line) = line := by
  have hall : ∀ c ∈ line.reverse, (c != '\n') = true := by
    intro c hc
    rw [bne_iff_ne]
    rintro rfl
    exact hline (List.mem_reverse.1 hc)
  have hnone : lines.reverse.takeWhile (· != '\n') = [] := by
    obtain rfl | ⟨front, rfl⟩ := hlines
    · rfl
    · rw [List.reverse_append]
      rfl
  rw [lastLine, List.reverse_append, List.takeWhile_append_of_pos hall, hnone, List.append_nil,
    List.reverse_reverse]

theorem exists_lines (text : List Char) :
    ∃ lines line, text = lines ++ line ∧ WholeLines lines ∧ '\n' ∉ line := by
  induction text with
  | nil => exact ⟨[], [], rfl, .inl rfl, List.not_mem_nil⟩
  | cons c text ih =>
      obtain ⟨lines, line, rfl, hlines, hline⟩ := ih
      by_cases hfirst : lines = [] ∧ c ≠ '\n'
      · obtain ⟨rfl, hc⟩ := hfirst
        refine ⟨[], c :: line, rfl, .inl rfl, ?_⟩
        rw [List.mem_cons, not_or]
        exact ⟨hc.symm, hline⟩
      · refine ⟨c :: lines, line, rfl, .inr ?_, hline⟩
        obtain rfl | ⟨front, rfl⟩ := hlines
        · have hc : c = '\n' := by
            by_contra hc
            exact hfirst ⟨rfl, hc⟩
          exact ⟨[], by rw [hc, List.nil_append]⟩
        · exact ⟨c :: front, rfl⟩

/-- Where the last line feed is. -/
def lastFeed? : List Char → Option Nat
  | [] => none
  | c :: rest =>
    match lastFeed? rest with
    | some offset => some (c.utf8Size + offset)
    | none => if c = '\n' then some 0 else none

theorem lastFeed?_eq_none (h : '\n' ∉ line) : lastFeed? line = none := by
  induction line with
  | nil => rfl
  | cons c line ih =>
      rw [List.mem_cons, not_or] at h
      rw [lastFeed?, ih h.2, if_neg (Ne.symm h.1)]

theorem lastFeed?_append (front : List Char) (h : '\n' ∉ line) :
    lastFeed? (front ++ '\n' :: line) = some (byteLength front) := by
  induction front with
  | nil => rw [List.nil_append, lastFeed?, lastFeed?_eq_none h, if_pos rfl, byteLength_nil]
  | cons c front ih => rw [List.cons_append, lastFeed?, ih, byteLength_cons]

/-- The offset behind the last line feed before an offset. -/
def lineStart? (text : List Char) (offset : Nat) : Option Nat := do
  let before ← slice? text 0 offset
  match lastFeed? before with
  | some feed => return feed + 1
  | none => return 0

theorem lineStart?_eq (hlines : WholeLines lines) (hline : '\n' ∉ line) (after : List Char) :
    lineStart? (lines ++ (line ++ after)) (byteLength (lines ++ line)) =
      some (byteLength lines) := by
  have hbefore : slice? (lines ++ (line ++ after)) 0 (byteLength (lines ++ line)) =
      some (lines ++ line) :=
    slice?_eq_some_iff.2 ⟨[], after, by simp, rfl, rfl⟩
  rw [lineStart?, hbefore]
  obtain rfl | ⟨front, rfl⟩ := hlines
  · rw [List.nil_append, Option.bind_eq_bind, Option.bind_some, lastFeed?_eq_none hline]
    rfl
  · rw [List.append_assoc, List.singleton_append, Option.bind_eq_bind, Option.bind_some,
      lastFeed?_append front hline, byteLength_append]
    rfl

end Text

open Text

namespace Location

variable {text before : List Char} {o o' offset : Nat}

/-- Line by line, and within a line column by column. -/
instance : LT Location :=
  ⟨fun a b => a.line < b.line ∨ (a.line = b.line ∧ a.column < b.column)⟩

theorem lt_iff {a b : Location} :
    a < b ↔ a.line < b.line ∨ (a.line = b.line ∧ a.column < b.column) := Iff.rfl

theorem of_byteLength (before after : List Char) :
    of (before ++ after) (byteLength before) =
      ⟨before.count '\n' + 1, (lastLine before).length + 1⟩ := by
  rw [of, takeBytes_byteLength_append]

theorem of_lines {lines line : List Char} (hlines : WholeLines lines) (hline : '\n' ∉ line)
    (after : List Char) : of (lines ++ line ++ after) (byteLength (lines ++ line)) =
      ⟨lines.count '\n' + 1, line.length + 1⟩ := by
  rw [of_byteLength, lastLine_append hlines hline, List.count_append, List.count_eq_zero.2 hline,
    Nat.add_zero]

/-- An offset is located where the text is cut for it. -/
theorem of_eq_of_isGreatest (h : IsGreatest {o | IsBoundary text o ∧ o ≤ offset} o) :
    of text offset = of text o := by
  obtain rfl := h.unique (isGreatest_takeBytes offset text)
  obtain ⟨after, hafter⟩ := takeBytes_isPrefix offset text
  have hsame := takeBytes_byteLength_append (takeBytes offset text) after
  rw [hafter] at hsame
  rw [of, of, hsame]

theorem of_lt_of_append {more : List Char} (hmore : more ≠ []) (after : List Char) :
    of (before ++ (more ++ after)) (byteLength before) <
      of (before ++ (more ++ after)) (byteLength (before ++ more)) := by
  obtain ⟨lines, line, rfl, hlines, hline⟩ := exists_lines before
  have hfirst := of_lines hlines hline (more ++ after)
  rw [hfirst, lt_iff]
  by_cases hfeed : '\n' ∈ more
  · left
    have hcount := List.count_pos_iff.2 hfeed
    rw [← List.append_assoc, of_byteLength, List.count_append, List.count_append]
    dsimp only
    omega
  · right
    have hlonger : '\n' ∉ line ++ more := by
      rw [List.mem_append, not_or]
      exact ⟨hline, hfeed⟩
    have hlater := of_lines hlines hlonger after
    simp only [List.append_assoc] at hlater ⊢
    rw [hlater, List.length_append]
    have hlength := List.length_pos_iff.2 hmore
    dsimp only
    omega

theorem of_lt_of (h : IsBoundary text o) (h' : IsBoundary text o') (hlt : o < o') :
    of text o < of text o' := by
  obtain ⟨before, after, rfl, rfl⟩ := h
  obtain ⟨before', after', htext, rfl⟩ := h'
  have hpart : before <+: before' := by
    apply isPrefix_of_byteLength_le (List.prefix_append before after) ⟨after', htext.symm⟩
    omega
  obtain ⟨more, rfl⟩ := hpart
  have hmore : more ≠ [] := by
    rintro rfl
    rw [List.append_nil] at hlt
    exact Nat.lt_irrefl _ hlt
  rw [List.append_assoc] at htext
  rw [htext]
  exact of_lt_of_append hmore after'

theorem lt_irrefl (a : Location) : ¬ a < a := by
  rw [lt_iff]
  omega

theorem eq_of_of_eq (h : IsBoundary text o) (h' : IsBoundary text o')
    (heq : of text o = of text o') : o = o' := by
  by_contra hne
  rcases Nat.lt_or_gt_of_ne hne with hlt | hlt
  · exact lt_irrefl _ (heq ▸ of_lt_of h h' hlt)
  · exact lt_irrefl _ (heq ▸ of_lt_of h' h hlt)

/-- The location of an offset, found by cutting the text at byte offsets only. -/
def locate? (text : List Char) (offset : Nat) : Option Location := do
  let offset := floorBoundary text offset
  let start ← lineStart? text offset
  let lines ← slice? text 0 start
  let line ← slice? text start offset
  return ⟨lines.count '\n' + 1, line.length + 1⟩

theorem locate?_eq (text : List Char) (offset : Nat) :
    locate? text offset = some (of text offset) := by
  rw [of_eq_of_isGreatest (isGreatest_floorBoundary text offset), locate?]
  obtain ⟨before, after, htext, hbefore⟩ := (isGreatest_floorBoundary text offset).1.1
  obtain ⟨lines, line, rfl, hlines, hline⟩ := exists_lines before
  rw [← hbefore]
  subst htext
  rw [of_lines hlines hline, List.append_assoc]
  have hstart := lineStart?_eq hlines hline after
  have hslice : slice? (lines ++ (line ++ after)) 0 (byteLength lines) = some lines :=
    slice?_eq_some_iff.2 ⟨[], line ++ after, rfl, rfl, rfl⟩
  have hslice' : slice? (lines ++ (line ++ after)) (byteLength lines)
      (byteLength (lines ++ line)) = some line := slice?_eq_some_iff.2 ⟨lines, after, rfl, rfl, rfl⟩
  simp only [hstart, hslice, hslice', Option.bind_eq_bind, Option.bind_some]
  rfl

/-- The location of an offset is found by cutting the text at byte offsets, going down to a boundary
and back to a line feed, and none of the cuts is inside a character. A position is located by the
line feeds before it and the characters behind the last of them.
Positions have the order of their locations, so no two have the same one; any other offset has the
location of the last position before it, which is the end for an offset behind the text. -/
theorem of_is_faithful (text : List Char) :
    (∀ offset, locate? text offset = some (of text offset)) ∧
    (∀ before after, text = before ++ after → ∃ lines line, before = lines ++ line ∧
      WholeLines lines ∧ '\n' ∉ line ∧
      of text (byteLength before) = ⟨1 + before.count '\n', 1 + line.length⟩) ∧
    (∀ o o', IsBoundary text o → IsBoundary text o' → o < o' → of text o < of text o') ∧
    (∀ o o', IsBoundary text o → IsBoundary text o' → of text o = of text o' → o = o') ∧
    ∀ offset, (∃ o, IsGreatest {o | IsBoundary text o ∧ o ≤ offset} o ∧
        of text offset = of text o) ∧
      (byteLength text ≤ offset → of text offset = of text (byteLength text)) := by
  refine ⟨locate?_eq text, ?_, fun o o' => of_lt_of, fun o o' => eq_of_of_eq,
    fun offset => ⟨?_, fun hle => ?_⟩⟩
  · rintro before after rfl
    obtain ⟨lines, line, rfl, hlines, hline⟩ := exists_lines before
    refine ⟨lines, line, rfl, hlines, hline, ?_⟩
    rw [of_lines hlines hline, List.count_append, List.count_eq_zero.2 hline, Nat.add_zero,
      Nat.add_comm 1, Nat.add_comm 1]
  · have hgreatest := isGreatest_floorBoundary text offset
    exact ⟨_, hgreatest, of_eq_of_isGreatest hgreatest⟩
  · have hend : IsBoundary text (byteLength text) := ⟨text, [], (List.append_nil text).symm, rfl⟩
    exact of_eq_of_isGreatest ⟨⟨hend, hle⟩, fun o ho => ho.1.le⟩

-- an offset inside a character is located at its start
example : of "é\nb".toList 1 = ⟨1, 1⟩ ∧ of "é\nb".toList 3 = ⟨2, 1⟩ := by decide

end Location

end StackCalc
