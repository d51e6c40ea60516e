import StackCalc.Proofs.Acceptance

/-!
# Programs that are parsed and where others go wrong

A program is parsed to what it stands for in the grammar, if it is within the limits. Another
goes wrong at the first token with which the tokens up to there begin no program.
-/

open StackCalc.Source.Parser

namespace StackCalc.Source

open Nonterminal

theorem viable_of_begins {front : Tokens} (h : Begins .program front) : Viable front := by
  obtain ⟨d, more, hd⟩ := h
  exact ⟨more, d, hd.symm⟩

theorem reads_of_parse {tokens : Tokens} {program : Program} (h : parse tokens = .ok program) :
    Reads .program maxNesting id program tokens := by
  have hwhole : whole (endOf tokens) maxNesting tokens = .ok (program, []) :=
    bind_eq_ok_iff.2 ⟨program, h, rfl⟩
  have hexplained := explains_whole (endOf tokens) maxNesting tokens tokens (List.Subset.refl _)
  rw [hwhole] at hexplained
  obtain ⟨front, hfront, hreads, -⟩ := hexplained
  rwa [hfront, List.append_nil]

/-- Something is too deep, or tokens are refused behind the beginning of a program, as are all that
go on from there with the same token. -/
theorem begins_of_parse_error {tokens : Tokens} {e : Located ParseError}
    (h : parse tokens = .error e) :
    (∃ t ∈ tokens, e = ⟨.tooDeep, t.span⟩) ∨
    ∃ front rest expected, tokens = front ++ rest ∧ Begins .program front ∧
      e = refusal (endOf tokens) expected rest ∧ ∀ rest', rest'.head? = rest.head? →
        whole (endOf tokens) maxNesting (front ++ rest') =
          .error (refusal (endOf tokens) expected rest') := by
  have hwhole : whole (endOf tokens) maxNesting tokens = .error e :=
    bind_eq_error_iff.2 (.inl h)
  have hexplained := explains_whole (endOf tokens) maxNesting tokens tokens (List.Subset.refl _)
  rwa [hwhole] at hexplained

theorem not_derivable_of_refused {ending place : Span} {tokens rest : Tokens}
    {expected : Expected}
    (h : whole ending maxNesting tokens = .error (refusal place expected rest)) :
    ¬ Derivable tokens := by
  rintro ⟨d, rfl⟩
  obtain hread | ⟨-, span, hdeep⟩ := d.statements_tokens ending
  · rw [whole, hread] at h
    cases h
  · rw [whole, hdeep] at h
    exact refusal_ne_tooDeep _ _ _ (congrArg (·.val) (Except.error.inj h)).symm

/-- The error is at one of the tokens, or where they end. -/
inductive ErrsAt (ending : Span) (tokens : Tokens) : Located ParseError → Prop
  | unexpected {t : Located Token} (h : t ∈ tokens) (expected) :
      ErrsAt ending tokens ⟨.unexpected expected t.val, t.span⟩
  | tooDeep {t : Located Token} (h : t ∈ tokens) : ErrsAt ending tokens ⟨.tooDeep, t.span⟩
  | ended (expected) : ErrsAt ending tokens ⟨.unexpectedEnd expected, ending⟩

theorem errsAt_of_parse {tokens : Tokens} {e : Located ParseError} (h : parse tokens = .error e) :
    ErrsAt (endOf tokens) tokens e := by
  obtain ⟨t, ht, rfl⟩ | ⟨front, rest, expected, hfront, -, rfl, -⟩ := begins_of_parse_error h
  · exact .tooDeep ht
  · cases rest with
    | nil => exact .ended expected
    | cons t rest =>
        have ht : t ∈ tokens := hfront ▸ List.mem_append_right front List.mem_cons_self
        exact .unexpected ht expected

/-- The parser accepts what can be derived from the grammar within the limits, and gives the tree
that every derivation of the tokens has. -/
theorem parse_eq_ok_iff (tokens : Tokens) (program : Program) :
    (parse tokens = .ok program ↔
      ∃ d : Derivation .program, d.tokens = tokens ∧ d.WithinLimits ∧ d.tree = program) ∧
    (parse tokens = .ok program →
      ∀ d : Derivation .program, d.tokens = tokens → d.tree = program) := by
  refine ⟨⟨fun h => ?_, ?_⟩, ?_⟩
  · obtain ⟨d, hfits, rfl, rfl⟩ := reads_of_parse h
    exact ⟨d, rfl, d.fits_iff_withinLimits.1 hfits, rfl⟩
  · rintro ⟨d, rfl, hlimits, rfl⟩
    exact d.parse_tokens.eq_ok hlimits
  · rintro h d rfl
    obtain hparse | ⟨-, span, hdeep⟩ := d.parse_tokens
    · exact Except.ok.inj (hparse.symm.trans h)
    · cases hdeep.symm.trans h

/-- An error that is not about the limits is where the tokens stop being the beginning of a
program: at the end if they only stop too early, and otherwise at the first token too many. -/
theorem parse_error_earliest {tokens : Tokens} {e : Located ParseError}
    (h : parse tokens = .error e) (hlimits : e.val ≠ .tooDeep) :
    (∃ expected, e.val = .unexpectedEnd expected ∧ ¬ Derivable tokens ∧
      ∃ more, more ≠ [] ∧ Derivable (tokens ++ more)) ∨
    ∃ k expected found, e.val = .unexpected expected found ∧
      tokens[k]? = some ⟨found, e.span⟩ ∧ Viable (tokens.take k) ∧
      ¬ Viable (tokens.take (k + 1)) := by
  obtain ⟨t, -, rfl⟩ | ⟨front, rest, expected, rfl, hbegins, rfl, hagain⟩ := begins_of_parse_error h
  · exact absurd rfl hlimits
  have hnone (rest' : Tokens) (hhead : rest'.head? = rest.head?) : ¬ Derivable (front ++ rest') :=
    not_derivable_of_refused (hagain rest' hhead)
  obtain ⟨more, hmore⟩ := viable_of_begins hbegins
  cases rest with
  | nil =>
      have hunfinished : ¬ Derivable front := List.append_nil front ▸ hnone [] rfl
      rw [List.append_nil]
      refine .inl ⟨expected, rfl, hunfinished, more, ?_, hmore⟩
      rintro rfl
      exact hunfinished (List.append_nil front ▸ hmore)
  | cons found behind =>
      refine .inr ⟨front.length, expected, found.val, rfl, ?_, ?_, ?_⟩
      · rw [List.getElem?_append_right (Nat.le_refl _), Nat.sub_self]
        rfl
      · rw [List.take_left' rfl]
        exact ⟨more, hmore⟩
      · rintro ⟨later, hlater⟩
        rw [List.take_append, List.take_of_length_le (Nat.le_succ _), Nat.add_sub_cancel_left,
          List.append_assoc] at hlater
        exact hnone (found :: later) rfl hlater

/-- The tokens of `def f() {`. -/
def unclosedBody : Tokens :=
  [Keyword.define.at ⟨0, 3⟩, ⟨.identifier "f", ⟨4, 5⟩⟩, Symbol.leftParen.at ⟨5, 6⟩,
    Symbol.rightParen.at ⟨6, 7⟩, Symbol.leftBrace.at ⟨8, 9⟩]

/-- The tokens of `a = b c;`. -/
def strayName : Tokens :=
  [⟨.identifier "a", ⟨0, 1⟩⟩, Symbol.equals.at ⟨2, 3⟩, ⟨.identifier "b", ⟨4, 5⟩⟩,
    ⟨.identifier "c", ⟨6, 7⟩⟩, Symbol.semicolon.at ⟨7, 8⟩]

theorem unclosed_body_waits_stray_name_fails :
    (¬ Derivable unclosedBody ∧ ∃ more, more ≠ [] ∧ Derivable (unclosedBody ++ more)) ∧
      Viable (strayName.take 3) ∧ ¬ Viable (strayName.take 4) := by
  have hbody : parse unclosedBody =
      .error ⟨.unexpectedEnd (.symbol .rightBrace), ⟨9, 9⟩⟩ := rfl
  have hname : parse strayName =
      .error ⟨.unexpected (.symbol .semicolon) (.identifier "c"), ⟨6, 7⟩⟩ := rfl
  constructor
  · have hplace := parse_error_earliest hbody (by decide)
    obtain ⟨expected, -, hwaits⟩ | ⟨k, expected, found, h, -⟩ := hplace
    · exact hwaits
    · cases h
  · have hplace := parse_error_earliest hname (by decide)
    obtain ⟨expected, h, -⟩ | ⟨k, expected, found, h, htoken, hfront, hnone⟩ := hplace
    · cases h
    · cases h
      -- no other token is the one that the error names
      have hk : ∀ k < 5, strayName[k]? = some ⟨.identifier "c", ⟨6, 7⟩⟩ → k = 3 := by decide
      obtain rfl := hk k (List.getElem?_eq_some_iff.1 htoken).1 htoken
      exact ⟨hfront, hnone⟩

end StackCalc.Source
