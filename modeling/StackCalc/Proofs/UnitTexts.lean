import StackCalc.Proofs.AssemblyText
import StackCalc.Proofs.Lexing
import StackCalc.Proofs.Units

/-!
# The items of a unit in its text

The tokens of a unit lie in its text one behind another, with nothing between them but blanks and
comments. So the span of an item shows its label with the colon, or its mnemonic with the operand
behind it.
-/

namespace StackCalc.Assembly

/-- How a token is written. A character that begins no token stands for itself. -/
inductive Spells : List Char → Except Char Token → Prop
  | mnemonic (opcode : Opcode) : Spells opcode.mnemonic.toList (.ok (.mnemonic opcode))
  | label {name : String} (h : IsName name) : Spells (name.toList ++ [':']) (.ok (.label name))
  | name {written : String} (h : IsName written) : Spells written.toList (.ok (.name written))
  | number {text : List Char} (hne : text ≠ []) :
      Spells text (.ok (.number (Number.read text)))
  | invalid (c : Char) : Spells [c] (.error c)

/-- Blanks and comments, wherever they stand. -/
def IsGap (gap : List Char) : Prop := ∀ start, tokensFrom start gap = []

/-- The first token of a text and what is behind it. -/
structure Begins (start : Nat) (text : List Char) (t : Located (Except Char Token)) (rest : Tokens)
    (gap slice after : List Char) : Prop extends Text.Cuts start text t.span gap slice after where
  skipped : IsGap gap
  spells : Spells slice t.val
  behind : tokensFrom t.span.stop after = rest

namespace Lexer

variable {c : Char} {rest tail : List Char} {r : Except Char Token}

theorem append_isPrefix {front back text : List Char} (h : front <+: text)
    (h' : back <+: text.drop front.length) : front ++ back <+: text := by
  obtain ⟨after, rfl⟩ := h
  rw [List.drop_left] at h'
  exact (List.prefix_append_right_inj front).2 h'

theorem fractionTail_isPrefix (rest : List Char) : fractionTail rest <+: rest := by
  unfold fractionTail
  split
  · split
    · exact List.nil_prefix
    · exact List.cons_prefix_cons.2 ⟨rfl, List.takeWhile_prefix _⟩
  · exact List.nil_prefix

theorem signTail_isPrefix (rest : List Char) : signTail rest <+: rest := by
  unfold signTail
  split
  · exact List.cons_prefix_cons.2 ⟨rfl, List.nil_prefix⟩
  · exact List.cons_prefix_cons.2 ⟨rfl, List.nil_prefix⟩
  · exact List.nil_prefix

theorem exponentTail_isPrefix (rest : List Char) : exponentTail rest <+: rest := by
  cases rest with
  | nil => exact List.nil_prefix
  | cons c rest =>
      rw [exponentTail]
      split
      · dsimp only
        split
        · exact List.nil_prefix
        · apply List.cons_prefix_cons.2
          exact ⟨rfl, append_isPrefix (signTail_isPrefix rest) (List.takeWhile_prefix _)⟩
      · exact List.nil_prefix

theorem numberTail_isPrefix (rest : List Char) : numberTail rest <+: rest := by
  rw [numberTail]
  have hwhole := append_isPrefix (List.takeWhile_prefix Char.isDigit (l := rest))
    (fractionTail_isPrefix _)
  apply append_isPrefix hwhole
  rw [List.length_append, ← List.drop_drop]
  exact exponentTail_isPrefix _

theorem colon_isPrefix (h : rest.head? = some ':') : [':'] <+: rest := by
  obtain ⟨after, rfl⟩ := List.head?_eq_some_iff.1 h
  exact List.prefix_append [':'] after

theorem tail_isPrefix (c : Char) (rest : List Char) : (scan c rest).2 <+: rest := by
  unfold scan
  split
  · dsimp only
    split
    · next hcolon => exact append_isPrefix (List.takeWhile_prefix _) (colon_isPrefix hcolon)
    · exact List.takeWhile_prefix _
  · split
    · exact numberTail_isPrefix rest
    · exact List.nil_prefix

theorem spells_word {name : String} (h : IsName name) : Spells name.toList (.ok (word name)) := by
  rw [word]
  split
  · next opcode hopcode =>
      have hmnemonic : opcode.mnemonic = name := by simpa using List.find?_some hopcode
      exact hmnemonic ▸ .mnemonic opcode
  · exact .name h

theorem spells_scan (c : Char) (rest : List Char) :
    Spells (c :: (scan c rest).2) (scan c rest).1 := by
  unfold scan
  split
  · next hstart =>
      dsimp only
      have hchars : (String.ofList (c :: rest.takeWhile continuesName)).toList =
          c :: rest.takeWhile continuesName := String.toList_ofList
      have hname : IsName (String.ofList (c :: rest.takeWhile continuesName)) :=
        ⟨c, _, hchars, hstart, fun x hx => List.mem_takeWhile_imp hx⟩
      generalize String.ofList (c :: rest.takeWhile continuesName) = name at hchars hname ⊢
      split
      · rw [← List.cons_append, ← hchars]
        exact .label hname
      · rw [← hchars]
        exact spells_word hname
  · split
    · exact .number (List.cons_ne_nil _ _)
    · exact .invalid c

end Lexer

section Tokens

variable {start : Nat} {c : Char} {text gap slice after : List Char}
  {t : Located (Except Char Token)} {before front rest : Tokens}

theorem IsGap.blank (hc : Text.isBlank c = true) (h : IsGap gap) : IsGap (c :: gap) := by
  intro start
  rw [Lexer.tokensFrom_blank hc]
  exact h _

theorem IsGap.comment {comment : List Char} (h : IsGap gap)
    (hcomment : (comment ++ gap).takeWhile (· != '\n') = comment) :
    IsGap (';' :: comment ++ gap) := by
  intro start
  rw [List.cons_append, tokensFrom, if_neg (by decide), if_pos rfl]
  dsimp only
  rw [hcomment, List.drop_left]
  exact h _

/-- What is before a token is still there when more of the text is read before it. -/
theorem Begins.past (skipped : List Char)
    (h : Begins (start + Text.byteLength skipped) text t rest gap slice after)
    (hgap : IsGap (skipped ++ gap)) :
    Begins start (skipped ++ text) t rest (skipped ++ gap) slice after where
  toCuts := h.toCuts.behind skipped
  skipped := hgap
  spells := h.spells
  behind := h.behind

theorem exists_begins (h : tokensFrom start text = t :: rest) :
    ∃ gap slice after, Begins start text t rest gap slice after := by
  fun_induction tokensFrom start text with
  | case1 => cases h
  | case2 start c text hblank ih =>
      obtain ⟨gap, slice, after, hbegins⟩ := ih h
      exact ⟨[c] ++ gap, slice, after, hbegins.past [c] (hbegins.skipped.blank hblank)⟩
  | case3 start text comment hblank ih =>
      obtain ⟨gap, slice, after, hbegins⟩ := ih h
      obtain ⟨behind, hbehind⟩ := List.takeWhile_prefix (· != '\n') (l := text)
      have hdrop : text.drop comment.length = behind := by
        rw [← hbehind]
        exact List.drop_left
      rw [hdrop] at hbegins
      have hcomment : (comment ++ (gap ++ (slice ++ after))).takeWhile (· != '\n') = comment := by
        rw [← hbegins.text_eq, hbehind]
      have hgap := hbegins.skipped.comment (Source.Lexer.takeWhile_cut hcomment)
      refine ⟨';' :: comment ++ gap, slice, after, ?_⟩
      rw [← hbehind]
      exact hbegins.past (';' :: comment) hgap
  | case4 start c text hblank hcomment scanned stop ih =>
      cases h
      obtain ⟨after, hafter⟩ := Lexer.tail_isPrefix c text
      refine ⟨[], c :: scanned.2, after, ⟨?_, rfl, rfl⟩, fun start => ?_,
        Lexer.spells_scan c text, ?_⟩
      · rw [List.nil_append, List.cons_append, hafter]
      · rw [tokensFrom]
      · rw [← hafter, List.drop_left]

theorem exists_behind (h : tokensFrom start text = before ++ rest) :
    ∃ skipped behind, text = skipped ++ behind ∧
      tokensFrom (start + Text.byteLength skipped) behind = rest := by
  induction before generalizing start text with
  | nil => exact ⟨[], text, rfl, h⟩
  | cons t before ih =>
      obtain ⟨gap, slice, after, hbegins⟩ := exists_begins h
      obtain ⟨skipped, behind, rfl, hbehind⟩ := ih hbegins.behind
      refine ⟨gap ++ (slice ++ skipped), behind, ?_, ?_⟩
      · rw [hbegins.text_eq]
        simp
      · rw [hbegins.stop_eq] at hbehind
        simpa [Nat.add_assoc] using hbehind

/-- Tokens behind others begin some way into the text. -/
theorem exists_begins_behind (h : tokensFrom start text = before ++ t :: rest) :
    ∃ skipped slice after, Text.Cuts start text t.span skipped slice after ∧
      Spells slice t.val ∧ tokensFrom t.span.stop after = rest := by
  obtain ⟨skipped, behind, rfl, hbehind⟩ := exists_behind h
  obtain ⟨gap, slice, after, hbegins⟩ := exists_begins hbehind
  exact ⟨skipped ++ gap, slice, after, hbegins.toCuts.behind skipped, hbegins.spells,
    hbegins.behind⟩

end Tokens

/-- How an operand is written. -/
inductive Operand.Spelled : List Char → Operand → Prop
  | name (written : String) : Spelled written.toList (.name written)
  | number {text : List Char} (hne : text ≠ []) : Spelled text (.number (Number.read text))

/-- How an item is written. -/
inductive Item.Spelled : List Char → Item → Prop
  | label (name : String) : Spelled (name.toList ++ [':']) (.label name)
  | alone {c : Command} (h : c.operand = .none) : Spelled c.opcode.mnemonic.toList (.command c)
  | along {c : Command} {gap written : List Char} (hgap : IsGap gap)
      (h : c.operand.Spelled written) :
      Spelled (c.opcode.mnemonic.toList ++ (gap ++ written)) (.command c)

theorem Operand.GivenBy.spelled {operand : Operand} {token : Token} {slice : List Char}
    (h : operand.GivenBy token) (hspells : Spells slice (.ok token)) : operand.Spelled slice := by
  cases h with
  | name written =>
      cases hspells
      exact .name written
  | mnemonic opcode =>
      cases hspells
      exact .name opcode.mnemonic
  | number value =>
      cases hspells with
      | number hne => exact .number hne

section Items

variable {text : List Char} {item : Located Item} {located : List (Located Item)}
  {before front rest : Tokens}

/-- The text of an item is that of its tokens and what is between them. -/
theorem Written.cuts (h : Written item front)
    (htokens : tokens text = before ++ (front ++ rest)) :
    ∃ skipped slice after, Text.Cuts 0 text item.span skipped slice after ∧
      item.val.Spelled slice := by
  cases h with
  | label name span =>
      obtain ⟨skipped, slice, after, hcuts, hspells, -⟩ := exists_begins_behind htokens
      cases hspells
      exact ⟨skipped, _, after, hcuts, .label name⟩
  | alone span hoperand =>
      obtain ⟨skipped, slice, after, hcuts, hspells, -⟩ := exists_begins_behind htokens
      cases hspells
      exact ⟨skipped, _, after, hcuts, .alone hoperand⟩
  | along span place hoperand =>
      obtain ⟨skipped, slice, after, hcuts, hspells, hbehind⟩ := exists_begins_behind htokens
      obtain ⟨gap, written, after', hoperand'⟩ := exists_begins hbehind
      cases hspells
      refine ⟨skipped, _, after', ⟨?_, hcuts.start_eq, ?_⟩,
        .along hoperand'.skipped (hoperand.spelled hoperand'.spells)⟩
      · rw [hcuts.text_eq, hoperand'.text_eq]
        simp
      · have hstop := hcuts.stop_eq
        have hstop' := hoperand'.stop_eq
        simp only [Text.byteLength_append]
        dsimp only at hstop hstop' ⊢
        omega

theorem shows_item (h : Reads (tokens text) located) (hitem : item ∈ located) :
    ∃ slice, Text.Shows text item.span slice ∧ item.val.Spelled slice := by
  obtain ⟨before, front, after, htokens, hwritten⟩ := h.exists_written hitem
  obtain ⟨skipped, slice, after, hcuts, hspelled⟩ := hwritten.cuts htokens
  exact ⟨slice, hcuts.shows, hspelled⟩

end Items

end StackCalc.Assembly
