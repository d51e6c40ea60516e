import StackCalc.Proofs.Subjects
import StackCalc.Proofs.UnitSubjects
import StackCalc.Toolchain

/-!
# Failures point at their subjects

Whatever stage a text fails in, the failure has a span that can be cut out of the text, and the
text shows there what the failure is about. Only the end of a text, where more was expected, is
shown as nothing.
-/

namespace StackCalc

open Source

def Source.LexError.IsShown (slice : List Char) : LexError → Prop
  | .unknownSymbol c => slice = [c]
  | .malformedNumber => IsLiteral slice ∧ (Number.read slice).isFinite = false

def Source.ParseError.IsShown (slice : List Char) : ParseError → Prop
  | .unexpected _ found => Spells slice found
  | .unexpectedEnd _ => slice = []
  | .tooDeep => ∃ t, Spells slice t

/-- The slice shows a place of the program that the text is parsed to. The error has the span of
this place and gives the name that stands there. -/
def IsPlaced (source : String) (slice : List Char) (e : Located EvalError) : Prop :=
  ∃ program, Toolchain.parse source = .ok program ∧
    ∃ m ∈ program.mentions, m.span = e.span ∧ m.Blamed e.val ∧ m.IsShown slice

namespace Failure

/-- What is wrong is shown by the slice. Faults are about no text. -/
def IsShown (text : String) (slice : List Char) : Failure → Prop
  | lex e => e.val.IsShown slice
  | parse e => e.val.IsShown slice
  | compile e => IsPlaced text slice ⟨.program e.val, e.span⟩
  | evaluate e => IsPlaced text slice e
  | assemble e => e.val.IsShown slice
  | fault _ _ => False

/-- More was expected where the text ends. -/
def AtEnd (failure : Failure) : Prop :=
  ∃ expected span, failure = parse ⟨.unexpectedEnd expected, span⟩

/-- The failure has a span, which shows what is wrong. -/
structure PointsAt (text : String) (failure : Failure) (span : Span) (slice : List Char) :
    Prop extends Text.Shows text.toList span slice where
  span_eq : failure.span? = some span
  empty_iff : span.start = span.stop ↔ failure.AtEnd
  shown : failure.IsShown text slice

end Failure

/-- A stage that reads the text fails: as that of a program to compile or to interpret in a
session, or as that of a unit to assemble, names being hashed in any way. -/
inductive FailsWith (text : String) : Failure → Prop
  | compiling {failure} (h : Toolchain.compile text = .error failure) : FailsWith text failure
  | interpreting {session failure}
      (h : (Toolchain.interpretIn session text).2 = .failed failure) : FailsWith text failure
  | assembling {hasher e} (h : Assembly.assembleWith hasher text.toList = .error e) :
      FailsWith text (.assemble e)

section Stages

variable {source : String} {text slice : List Char} {program : Program}

theorem Source.shows_of_tokens {e : Located LexError} (h : tokens text = .error e) :
    ∃ slice, Text.Shows text e.span slice ∧ slice ≠ [] ∧ e.val.IsShown slice := by
  obtain ⟨before, c, tail, after, hcuts, hscan, -⟩ := stop_of_tokensFrom h
  refine ⟨c :: tail, hcuts.shows, List.cons_ne_nil c tail, ?_⟩
  obtain ⟨he, rfl, -⟩ | ⟨he, hliteral, hlarge, -⟩ := Lexer.error_of_scan hscan
  · rw [he]
    rfl
  · rw [he]
    exact ⟨hliteral, hlarge⟩

theorem Source.shows_of_parse {toks : List (Located Token)} {e : Located ParseError}
    (htoks : tokens text = .ok toks) (h : parse toks = .error e) :
    ∃ slice, Text.Shows text e.span slice ∧
      (slice = [] ↔ ∃ expected, e.val = .unexpectedEnd expected) ∧ e.val.IsShown slice := by
  have hfalls := fallsInto_of_tokensFrom htoks
  cases errsAt_of_parse h with
  | unexpected ht expected =>
      obtain ⟨slice, hshows, hspells⟩ := hfalls.shows_token ht
      refine ⟨slice, hshows, ?_, hspells⟩
      simp [hspells.ne_nil]
  | tooDeep ht =>
      obtain ⟨slice, hshows, hspells⟩ := hfalls.shows_token ht
      refine ⟨slice, hshows, ?_, _, hspells⟩
      simp [hspells.ne_nil]
  | ended expected => exact ⟨[], hfalls.shows_end, by simp, rfl⟩

theorem BlamedOn.shows {e : Located EvalError} (h : BlamedOn program.mentions e)
    (hparse : Toolchain.parse source = .ok program) :
    ∃ slice, Text.Shows source.toList e.span slice ∧ slice ≠ [] ∧ IsPlaced source slice e := by
  obtain ⟨m, hm, hspan, hblamed⟩ := h
  obtain ⟨toks, htoks, hparsed⟩ := bind_eq_ok_iff.1 hparse
  obtain ⟨slice, hshows, hne, hshown⟩ := shows_mentions (mapError_eq_ok_iff.1 htoks)
    (mapError_eq_ok_iff.1 hparsed) m hm
  exact ⟨slice, hspan ▸ hshows, hne, program, hparse, m, hm, hspan, hblamed, hshown⟩

/-- A program that is interpreted fails to be parsed, or at its evaluation. -/
theorem Toolchain.failed_of_interpretIn {session : Session} {failure : Failure}
    (h : (interpretIn session source).2 = .failed failure) :
    parse source = .error failure ∨ ∃ program e, parse source = .ok program ∧
      (session.evaluate program).2 = .error e ∧ failure = .evaluate e := by
  rw [interpretIn] at h
  cases hparse : parse source with
  | error failure' =>
      rw [hparse] at h
      cases h
      exact .inl rfl
  | ok program =>
      rw [hparse] at h
      obtain ⟨later, ended, hended⟩ : ∃ later ended, session.evaluate program = (later, ended) :=
        ⟨_, _, rfl⟩
      simp only [hended] at h
      cases ended with
      | ok value => cases h
      | error e =>
          cases h
          exact .inr ⟨program, e, rfl, by rw [hended], rfl⟩

end Stages

namespace Failure

variable {text : String} {failure : Failure} {span : Span} {slice : List Char}

theorem PointsAt.of_ne_nil (hspan : failure.span? = some span)
    (hshows : Text.Shows text.toList span slice) (hne : slice ≠ []) (hend : ¬ failure.AtEnd)
    (hshown : failure.IsShown text slice) : failure.PointsAt text span slice where
  toShows := hshows
  span_eq := hspan
  empty_iff := by
    rw [hshows.start_eq_stop_iff]
    exact iff_of_false hne hend
  shown := hshown

theorem PointsAt.of_parse (h : Toolchain.parse text = .error failure) :
    ∃ span slice, failure.PointsAt text span slice := by
  obtain h | ⟨toks, htoks, h⟩ := bind_eq_error_iff.1 h
  · obtain ⟨e, he, rfl⟩ := mapError_eq_error_iff.1 h
    obtain ⟨slice, hshows, hne, hshown⟩ := shows_of_tokens he
    exact ⟨e.span, slice, .of_ne_nil rfl hshows hne (by simp [AtEnd]) hshown⟩
  · obtain ⟨e, he, rfl⟩ := mapError_eq_error_iff.1 h
    obtain ⟨slice, hshows, hend, hshown⟩ := shows_of_parse (mapError_eq_ok_iff.1 htoks) he
    refine ⟨e.span, slice, hshows, rfl, ?_, hshown⟩
    rw [hshows.start_eq_stop_iff, hend]
    constructor
    · rintro ⟨expected, hval⟩
      exact ⟨expected, e.span, by rw [← hval]⟩
    · rintro ⟨expected, span, heq⟩
      cases heq
      exact ⟨expected, rfl⟩

end Failure

/-- A failure of a stage that reads a text points at its subject there. -/
theorem FailsWith.points_at_subject {text : String} {failure : Failure}
    (h : FailsWith text failure) : ∃ span slice, failure.PointsAt text span slice := by
  cases h with
  | compiling h =>
      obtain h | ⟨program, hparse, h⟩ := bind_eq_error_iff.1 h
      · exact Failure.PointsAt.of_parse h
      · obtain ⟨e, he, rfl⟩ := mapError_eq_error_iff.1 h
        obtain ⟨slice, hshows, hne, hplaced⟩ := (program.assembly_refusesOn e he).shows hparse
        exact ⟨e.span, slice, .of_ne_nil rfl hshows hne (by simp [Failure.AtEnd]) hplaced⟩
  | interpreting h =>
      obtain h | ⟨program, e, hparse, he, rfl⟩ := Toolchain.failed_of_interpretIn h
      · exact Failure.PointsAt.of_parse h
      · have hblamed := Session.blamedOn_of_evaluate he
        obtain ⟨slice, hshows, hne, hplaced⟩ := hblamed.shows hparse
        exact ⟨e.span, slice, .of_ne_nil rfl hshows hne (by simp [Failure.AtEnd]) hplaced⟩
  | assembling h =>
      obtain ⟨slice, hshows, hshown⟩ := Assembly.shows_of_assembleWith h
      exact ⟨_, slice, .of_ne_nil rfl hshows hshown.ne_nil (by simp [Failure.AtEnd]) hshown⟩

/-- A function that reads a variable of no scope. -/
def strayRead : String := "def half(x) \x7b return x / two; \x7d"

theorem stray_read_pointed_at :
    FailsWith strayRead (.compile ⟨.unboundVariable "two", 25, 28⟩) ∧
      Text.Shows strayRead.toList ⟨25, 28⟩ "two".toList := by
  have hrun : ((Toolchain.parse strayRead).toOption.any fun program =>
      decide (program.assembly = .error ⟨.unboundVariable "two", 25, 28⟩)) = true := by
    decide +kernel
  obtain ⟨program, hparse, hassembly⟩ := exists_of_any hrun
  have hcompile : Toolchain.compile strayRead =
      .error (.compile ⟨.unboundVariable "two", 25, 28⟩) := by
    rw [Toolchain.compile, hparse]
    exact mapError_eq_error_iff.2 ⟨_, of_decide_eq_true hassembly, rfl⟩
  have hfails : FailsWith strayRead (.compile ⟨.unboundVariable "two", 25, 28⟩) :=
    .compiling hcompile
  obtain ⟨span, slice, hpoints⟩ := hfails.points_at_subject
  cases hpoints.span_eq
  refine ⟨hfails, ?_⟩
  obtain ⟨_, -, m, -, -, hblamed, hshown⟩ := hpoints.shown
  generalize herror : EvalError.program _ = error at hblamed
  cases hblamed with
  | unbound name =>
      injection herror with herror
      injection herror with hname
      rw [hname, ← hshown]
      exact hpoints.toShows
  | _ => cases herror

end StackCalc
