import StackCalc.Proofs.Outcome
import StackCalc.Source.Token

/-!
# Tokens of joined texts

A token that is not at the end of a text is read as before when more text follows, since what
ended it is still there. A symbol is read as before even at the end. So the tokens of a text that
ends in a symbol are the first tokens of any text that goes on from there.
-/

namespace StackCalc.Source

namespace Lexer

variable {p : Char → Bool} {c : Char} {rest behind tail : List Char} {r : Except LexError Token}

theorem takeWhile_append_of_lt (h : (rest.takeWhile p).length < rest.length) (more : List Char) :
    (rest ++ more).takeWhile p = rest.takeWhile p := by
  rw [List.takeWhile_append, if_neg (Nat.ne_of_lt h)]

theorem numberTail_of_point
    (h : rest.drop (rest.takeWhile Char.isDigit).length = '.' :: behind) :
    numberTail rest = rest.takeWhile Char.isDigit ++ '.' :: behind.takeWhile Char.isDigit := by
  unfold numberTail
  simp only [h]

theorem numberTail_of_not_point
    (h : ∀ behind, rest.drop (rest.takeWhile Char.isDigit).length ≠ '.' :: behind) :
    numberTail rest = rest.takeWhile Char.isDigit := by
  unfold numberTail
  dsimp only
  split
  · next behind hpoint => exact absurd hpoint (h behind)
  · rfl

/-- The digits before a point, or all of the digits. -/
theorem length_takeWhile_le_numberTail :
    (rest.takeWhile Char.isDigit).length ≤ (numberTail rest).length := by
  by_cases h : ∃ behind, rest.drop (rest.takeWhile Char.isDigit).length = '.' :: behind
  · obtain ⟨behind, hpoint⟩ := h
    rw [numberTail_of_point hpoint, List.length_append]
    exact Nat.le_add_right _ _
  · exact Nat.le_of_eq (congrArg List.length (numberTail_of_not_point (not_exists.1 h)).symm)

theorem numberTail_append (h : (numberTail rest).length < rest.length) (more : List Char) :
    numberTail (rest ++ more) = numberTail rest := by
  have hwhole := Nat.lt_of_le_of_lt length_takeWhile_le_numberTail h
  have htake := takeWhile_append_of_lt hwhole more
  have hdrop : (rest ++ more).drop (rest.takeWhile Char.isDigit).length =
      rest.drop (rest.takeWhile Char.isDigit).length ++ more :=
    List.drop_append_of_le_length (Nat.le_of_lt hwhole)
  have hlength := List.length_drop (i := (rest.takeWhile Char.isDigit).length) (l := rest)
  obtain ⟨d, behind, hbehind⟩ : ∃ d behind,
      rest.drop (rest.takeWhile Char.isDigit).length = d :: behind := by
    apply List.exists_cons_of_ne_nil
    intro hnil
    rw [hnil, List.length_nil] at hlength
    omega
  rw [hbehind, List.cons_append] at hdrop
  by_cases hpoint : d = '.'
  · subst hpoint
    rw [numberTail_of_point hbehind] at h ⊢
    rw [hbehind] at hlength
    simp only [List.length_append, List.length_cons] at h hlength
    have hlt : (behind.takeWhile Char.isDigit).length < behind.length := by omega
    rw [numberTail_of_point (htake ▸ hdrop), htake, takeWhile_append_of_lt hlt]
  · have hno (other : List Char) : d :: other ≠ '.' :: behind := by simp [hpoint]
    rw [numberTail_of_not_point, htake, numberTail_of_not_point]
    · intro other hother
      rw [hbehind] at hother
      exact hpoint (List.cons.inj hother).1
    · intro other hother
      rw [htake, hdrop] at hother
      exact hpoint (List.cons.inj hother).1

theorem numberTail_isPrefix : numberTail rest <+: rest := by
  have hwhole := List.takeWhile_prefix (p := Char.isDigit) (l := rest)
  by_cases h : ∃ behind, rest.drop (rest.takeWhile Char.isDigit).length = '.' :: behind
  · obtain ⟨behind, hpoint⟩ := h
    have hrest : rest.takeWhile Char.isDigit ++ '.' :: behind = rest :=
      hpoint ▸ List.prefix_iff_eq_append.1 hwhole
    obtain ⟨after, hafter⟩ := List.takeWhile_prefix (p := Char.isDigit) (l := behind)
    refine ⟨after, ?_⟩
    rw [numberTail_of_point hpoint, List.append_assoc, List.cons_append, hafter, hrest]
  · rw [numberTail_of_not_point (not_exists.1 h)]
    exact hwhole

theorem scan_of_startsName (h : startsName c = true) : scan c rest =
    (.ok (word (String.ofList (c :: rest.takeWhile continuesName))),
      rest.takeWhile continuesName) := by
  unfold scan
  rw [if_pos h]

theorem scan_of_isDigit (hname : ¬ startsName c = true) (h : c.isDigit = true) :
    scan c rest = (literal (c :: numberTail rest), numberTail rest) := by
  unfold scan
  rw [if_neg hname, if_pos h]

theorem scan_of_other (hname : ¬ startsName c = true) (hdigit : ¬ c.isDigit = true) :
    scan c rest = (match Symbol.ofChar? c with
      | some s => .ok (.symbol s)
      | none => .error (.unknownSymbol c), []) := by
  unfold scan
  rw [if_neg hname, if_neg hdigit]
  cases Symbol.ofChar? c <;> rfl

theorem word_ne_symbol (name : String) (s : Symbol) : word name ≠ .symbol s := by
  unfold word
  split
  · simp
  · split <;> simp

theorem literal_ne_symbol (digits : List Char) (s : Symbol) :
    literal digits ≠ .ok (.symbol s) := by
  unfold literal
  dsimp only
  split <;> simp

/-- What ends a token, or that it is a symbol, does not hang on what is further behind. -/
theorem scan_append (h : scan c rest = (r, tail))
    (hends : tail.length < rest.length ∨ ∃ s, r = .ok (.symbol s)) (more : List Char) :
    scan c (rest ++ more) = (r, tail) := by
  by_cases hname : startsName c = true
  · rw [scan_of_startsName hname] at h ⊢
    obtain ⟨rfl, rfl⟩ := Prod.mk.inj h
    rcases hends with hlt | ⟨s, hs⟩
    · rw [takeWhile_append_of_lt hlt]
    · exact absurd (Except.ok.inj hs) (word_ne_symbol _ s)
  · by_cases hdigit : c.isDigit = true
    · rw [scan_of_isDigit hname hdigit] at h ⊢
      obtain ⟨rfl, rfl⟩ := Prod.mk.inj h
      rcases hends with hlt | ⟨s, hs⟩
      · rw [numberTail_append hlt]
      · exact absurd hs (literal_ne_symbol _ s)
    · rw [scan_of_other hname hdigit] at h ⊢
      exact h

theorem tail_isPrefix (h : scan c rest = (r, tail)) : tail <+: rest := by
  by_cases hname : startsName c = true
  · rw [scan_of_startsName hname] at h
    obtain ⟨-, rfl⟩ := Prod.mk.inj h
    exact List.takeWhile_prefix _
  · by_cases hdigit : c.isDigit = true
    · rw [scan_of_isDigit hname hdigit] at h
      obtain ⟨-, rfl⟩ := Prod.mk.inj h
      exact numberTail_isPrefix
    · rw [scan_of_other hname hdigit] at h
      obtain ⟨-, rfl⟩ := Prod.mk.inj h
      exact List.nil_prefix

end Lexer

/-- The last token, if there is one, is a symbol. -/
def EndsInSymbol (toks : List (Located Token)) : Prop :=
  ∀ last, toks.getLast? = some last → ∃ s, last.val = .symbol s

theorem EndsInSymbol.tail {t : Located Token} {toks : List (Located Token)}
    (h : EndsInSymbol (t :: toks)) : EndsInSymbol toks := by
  intro last hlast
  refine h last ?_
  rw [List.getLast?_cons, hlast]
  rfl

/-- A text that ends in a symbol may go on, and its tokens stay what they are. -/
theorem tokensFrom_append {start : Nat} {text : List Char} {toks : List (Located Token)}
    (h : tokensFrom start text = .ok toks) (hlast : EndsInSymbol toks) (more : List Char) :
    tokensFrom start (text ++ more) =
      (tokensFrom (start + Text.byteLength text) more).map (toks ++ ·) := by
  fun_induction tokensFrom start text generalizing toks with
  | case1 start =>
      cases h
      rw [List.nil_append, Text.byteLength_nil, Nat.add_zero]
      cases tokensFrom start more <;> rfl
  | case2 start c rest hblank ih =>
      rw [List.cons_append, tokensFrom, if_pos hblank, ih h hlast, Text.byteLength_cons,
        Nat.add_assoc]
  | case3 => cases h
  | case4 start c rest hblank tail stop token hscan =>
      rename_i ih
      obtain ⟨later, hlater, h⟩ := bind_eq_ok_iff.1 h
      cases h
      have htail := Lexer.tail_isPrefix hscan
      have hends : tail.length < rest.length ∨ ∃ s,
          (Except.ok token : Except LexError Token) = .ok (.symbol s) := by
        by_cases hlt : tail.length < rest.length
        · exact .inl hlt
        · -- nothing is left behind this token, which is then the last one
          rw [List.drop_of_length_le (Nat.le_of_not_lt hlt), tokensFrom] at hlater
          cases hlater
          obtain ⟨s, hs⟩ := hlast _ rfl
          exact .inr ⟨s, congrArg _ hs⟩
      have hbytes : start + Text.byteLength (c :: rest) =
          stop + Text.byteLength (rest.drop tail.length) := by
        have hbehind := List.prefix_iff_eq_append.1 htail
        rw [Nat.add_assoc, ← Text.byteLength_append, List.cons_append, hbehind]
      rw [List.cons_append, tokensFrom, if_neg hblank, Lexer.scan_append hscan hends]
      dsimp only
      rw [List.drop_append_of_le_length htail.length_le, ih hlater hlast.tail, hbytes]
      cases tokensFrom (stop + Text.byteLength (rest.drop tail.length)) more <;> rfl

end StackCalc.Source
