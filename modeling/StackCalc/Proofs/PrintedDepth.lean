import StackCalc.Proofs.Lexing
import StackCalc.Proofs.Parsing
import StackCalc.Proofs.Printing

/-!
# Printed programs and the limits

The parser keeps the nesting of constructs and the heights of expressions apart, but an expression
is printed with a pair of parentheses for each operator, inside the definitions around it. So a
program that was parsed may be too deep when it is printed. That is the only way in which its text
can be refused, and it takes a definition.
-/

open StackCalc.Source.Parser

namespace StackCalc

theorem Number.isNegative_ofQuotient (n d : Nat) : (ofQuotient n d).isNegative = false := by
  rw [Bool.eq_false_iff, Ne, isNegative_iff, ofQuotient]
  generalize (_ <<< 52) + roundEven n _ = rounded
  have hle : min rounded infinity.bits.toNat ≤ 0x7ff0000000000000 := Nat.min_le_right _ _
  have hlt : min rounded infinity.bits.toNat < 2 ^ 64 := by omega
  dsimp only
  rw [UInt64.toNat_ofNat_of_lt' hlt]
  omega

theorem Decimal.isNegative_nearest (x : Decimal) : x.nearest.isNegative = false := by
  rw [nearest]
  split
  · rfl
  · split
    · rfl
    · split
      · rfl
      · exact Number.isNegative_ofQuotient _ _

namespace Source

theorem isUnsigned_read {text : List Char} (h : IsLiteral text)
    (hfinite : (Number.read text).isFinite = true) : IsUnsigned (Number.read text) := by
  refine ⟨hfinite, ?_⟩
  cases text with
  | nil => rfl
  | cons c rest =>
      obtain ⟨hdigit, -⟩ := Lexer.shape_of_isLiteral h
      have hread : Number.read (c :: rest) = (Decimal.read (c :: rest)).nearest := by
        rw [Number.read]
        rintro text heq
        cases heq
        cases hdigit
      rw [hread, Decimal.isNegative_nearest]

theorem Spells.over {text : List Char} {t : Token} (h : Spells text t) :
    t.Over IsPlainName IsUnsigned := by
  cases h with
  | keyword | symbol => trivial
  | identifier h => exact h
  | number h hfinite => exact isUnsigned_read h hfinite

/-- A program that was read can be printed and read: its names are no keywords, and its numbers
have no sign. -/
theorem over_of_tokens {text : List Char} {toks : Tokens} {program : Program}
    (htoks : tokens text = .ok toks) (h : parse toks = .ok program) :
    program.Over IsPlainName IsUnsigned := by
  refine over_of_parse ⟨rfl, rfl⟩ (fun t ht => ?_) h
  obtain ⟨before, slice, after, hlies⟩ := (fallsInto_of_tokensFrom htoks).lies t ht
  exact hlies.spells.over

def Token.turn : Token → Int
  | .symbol .leftParen | .symbol .leftBrace => 1
  | .symbol .rightParen | .symbol .rightBrace => -1
  | _ => 0

/-- How many more brackets the tokens open than close. -/
def level : Tokens → Int
  | [] => 0
  | t :: toks => t.val.turn + level toks

/-- The most brackets that are open anywhere in the tokens. -/
def peak : Tokens → Int
  | [] => 0
  | t :: toks => max 0 (t.val.turn + peak toks)

section Peaks

variable {N : Nonterminal}

@[simp] theorem level_nil : level [] = 0 := rfl

@[simp] theorem peak_nil : peak [] = 0 := rfl

@[simp] theorem level_cons (t : Located Token) (toks : Tokens) :
    level (t :: toks) = t.val.turn + level toks := rfl

@[simp] theorem peak_cons (t : Located Token) (toks : Tokens) :
    peak (t :: toks) = max 0 (t.val.turn + peak toks) := rfl

theorem peak_nonneg (toks : Tokens) : 0 ≤ peak toks := by
  cases toks with
  | nil => exact Int.le_refl 0
  | cons t toks => exact Int.le_max_left _ _

@[simp] theorem level_append (xs ys : Tokens) : level (xs ++ ys) = level xs + level ys := by
  induction xs with
  | nil => simp
  | cons t xs ih => rw [List.cons_append, level_cons, level_cons, ih, Int.add_assoc]

@[simp] theorem peak_append (xs ys : Tokens) :
    peak (xs ++ ys) = max (peak xs) (level xs + peak ys) := by
  induction xs with
  | nil =>
      have := peak_nonneg ys
      simp only [List.nil_append, peak_nil, level_nil]
      omega
  | cons t xs ih =>
      rw [List.cons_append, peak_cons, peak_cons, level_cons, ih]
      omega

theorem Derivation.level_tokens (d : Derivation N) : level d.tokens = 0 := by
  induction d with
  | done | noNames | lastName | number | named | noSums => rfl
  | defining d ih | someNames d ih | single d ih | calling d ih | someSums d ih
    | lastSum d ih => exact ih
  | next first later ih ih' | moreSums first comma later ih ih' =>
      simp [tokens, ih, ih', Token.turn]
  | operation first op h place later ih ih' => simp [tokens, ih, ih', Token.turn]
  | definition keyword name leftParen params rightParen leftBrace body rightBrace ih ih' =>
      simp [tokens, ih, ih', Token.turn]
  | returning keyword x semicolon ih | assigning target equals x semicolon ih
    | evaluating x semicolon ih | moreNames name comma x ih | negation minus x ih
    | grouping leftParen x rightParen ih | call callee leftParen x rightParen ih =>
      simp [tokens, ih, Token.turn]

/-- Behind what is derived, as much is open as in front of it. -/
theorem Derivation.peak_tokens_append (d : Derivation N) (rest : Tokens) :
    peak (d.tokens ++ rest) = max (peak d.tokens) (peak rest) := by
  rw [peak_append, d.level_tokens, Int.zero_add]

theorem Derivation.peak_tokens_le (d : Derivation N) : peak d.tokens ≤ d.nesting := by
  induction d with
  | done | noNames | lastName | number | named | noSums => simp [tokens, nesting, Token.turn]
  | defining d ih | someNames d ih | single d ih | calling d ih | someSums d ih
    | lastSum d ih => exact ih
  | returning keyword x semicolon ih | assigning target equals x semicolon ih
    | evaluating x semicolon ih | moreNames name comma x ih | negation minus x ih
    | grouping leftParen x rightParen ih | call callee leftParen x rightParen ih =>
      simp only [tokens, nesting, peak_cons, peak_tokens_append, peak_nil, Token.turn]
      omega
  | next first later ih ih' | operation first op h place later ih ih'
    | moreSums first comma later ih ih' =>
      simp only [tokens, nesting, peak_cons, peak_tokens_append, Token.turn]
      omega
  | definition keyword name leftParen params rightParen leftBrace body rightBrace ih ih' =>
      simp only [tokens, nesting, peak_cons, peak_tokens_append, peak_nil, Token.turn]
      omega

/-- Only negations are nested without being open. -/
theorem Derivation.le_peak_tokens {d : Derivation N} (hplain : d.Plain) :
    d.nesting ≤ peak d.tokens := by
  induction d with
  | done | noNames | lastName | number | named | noSums => simp [tokens, nesting, Token.turn]
  | defining d ih | someNames d ih | single d ih | calling d ih | someSums d ih
    | lastSum d ih => exact ih hplain
  | negation minus x ih => cases hplain
  | returning keyword x semicolon ih | assigning target equals x semicolon ih
    | evaluating x semicolon ih | moreNames name comma x ih
    | grouping leftParen x rightParen ih | call callee leftParen x rightParen ih =>
      have hx := ih hplain
      simp only [tokens, nesting, peak_cons, peak_tokens_append, peak_nil, Token.turn]
      omega
  | next first later ih ih' | operation first op h place later ih ih'
    | moreSums first comma later ih ih' =>
      have hfirst := ih hplain.1
      have hlater := ih' hplain.2
      simp only [tokens, nesting, peak_cons, peak_tokens_append, Token.turn]
      omega
  | definition keyword name leftParen params rightParen leftBrace body rightBrace ih ih' =>
      have hparams := ih hplain.1
      have hbody := ih' hplain.2
      simp only [tokens, nesting, peak_cons, peak_tokens_append, peak_nil, Token.turn]
      omega

end Peaks

theorem Stmt.heights_of_unplaced {ss ss' : List Stmt}
    (h : Stmt.unplacedAll ss = Stmt.unplacedAll ss') :
    (Stmt.expressionsOfAll ss).map Expr.height = (Stmt.expressionsOfAll ss').map Expr.height := by
  rw [← Stmt.heights_unplacedAll, h, Stmt.heights_unplacedAll]

/-- The text of a program is derived from the grammar, and as many brackets are open in it as
enclose one another. -/
theorem Program.exists_derivation (program : Program)
    (hover : program.Over IsPlainName IsUnsigned) :
    ∃ d : Derivation .program, tokens program.text.toList = .ok d.tokens ∧
      Program.unplaced d.tree = program.unplaced ∧ d.nesting = program.enclosures ∧
      program.enclosures ≤ peak d.tokens := by
  obtain ⟨_, stop, hlexes, d, rfl, htree, hnesting, hplain⟩ := lexedLines_nested hover 0 []
  have hpeak := Derivation.le_peak_tokens hplain
  rw [hnesting] at hpeak
  refine ⟨d, ?_, htree, hnesting, hpeak⟩
  rw [Lexes, List.append_nil, tokensFrom] at hlexes
  rw [tokens, Program.text, hlexes]
  exact congrArg Except.ok (List.append_nil _)

theorem peak_le_of_parse {toks : Tokens} {program : Program} (h : parse toks = .ok program) :
    peak toks ≤ maxNesting := by
  obtain ⟨d, rfl, hlimits, -⟩ := (parse_eq_ok_iff toks program).1.1 h
  have hnesting : 0 + d.nesting ≤ maxNesting :=
    (d.depths_le_iff (Nat.zero_le _)).1 hlimits.depths
  have hpeak := d.peak_tokens_le
  omega

theorem Program.enclosures_le {program : Program} {limit : Nat}
    (hnone : ∀ s ∈ program, ∀ name params body, s ≠ .define name params body)
    (h : ∀ e ∈ Stmt.expressionsOfAll program, e.height ≤ limit) :
    program.enclosures ≤ limit := by
  rw [enclosures]
  induction program with
  | nil => exact Nat.zero_le _
  | cons s ss ih =>
      obtain ⟨hs, hss⟩ := List.forall_mem_cons.1 hnone
      rw [Stmt.expressionsOfAll, List.forall_mem_append] at h
      refine Nat.max_le.2 ⟨?_, ih hss h.2⟩
      cases s with
      | define name params body => exact absurd rfl (hs name params body)
      | assign target value | giveBack value span | eval value =>
          exact Nat.le_trans value.enclosures_le_height (h.1 value List.mem_cons_self)

/-- The text of a program that was parsed is parsed as this program exactly if it is not too
deep, as it can only be with definitions, and else it is refused for this reason. -/
theorem Program.parse_text_of_parse {source : String} {program : Program}
    (h : Toolchain.parse source = .ok program) :
    (program.enclosures ≤ maxNesting → ∃ program', Toolchain.parse program.text = .ok program' ∧
      program'.unplaced = program.unplaced) ∧
    (maxNesting < program.enclosures →
      ∃ span, Toolchain.parse program.text = .error (.parse ⟨.tooDeep, span⟩)) ∧
    ((∀ s ∈ program, ∀ name params body, s ≠ .define name params body) →
      program.enclosures ≤ maxNesting) := by
  obtain ⟨toks, htoks, h⟩ := bind_eq_ok_iff.1 h
  have hlexed := mapError_eq_ok_iff.1 htoks
  have hparsed := mapError_eq_ok_iff.1 h
  obtain ⟨source, -, hlimits, rfl⟩ := (parse_eq_ok_iff toks program).1.1 hparsed
  obtain ⟨d, htokens, htree, hnesting, hpeak⟩ :=
    Program.exists_derivation source.tree (over_of_tokens hlexed hparsed)
  have hparse : Toolchain.parse (Program.text source.tree) = (parse d.tokens).mapError .parse := by
    rw [Toolchain.parse, htokens]
    rfl
  refine ⟨fun hle => ?_, fun hlt => ?_, fun hnone => enclosures_le hnone hlimits.heights⟩
  · have hheights : ∀ height ∈ (Stmt.expressionsOfAll source.tree).map Expr.height,
        height ≤ maxNesting := List.forall_mem_map.2 hlimits.heights
    rw [← Stmt.heights_of_unplaced htree] at hheights
    have hfits : d.WithinLimits := by
      refine ⟨?_, List.forall_mem_map.1 hheights⟩
      rwa [d.depths_le_iff (Nat.zero_le _), Nat.zero_add, hnesting]
    refine ⟨d.tree, ?_, htree⟩
    rw [hparse, d.parse_tokens.eq_ok hfits]
    rfl
  · obtain hok | ⟨-, span, hdeep⟩ := d.parse_tokens
    · have hle := peak_le_of_parse hok
      omega
    · refine ⟨span, ?_⟩
      rw [hparse, hdeep]
      rfl

/-- A sum of 256 terms inside two definitions, written without a parenthesis. Printed, the sum has
255 of them around its first term. -/
def deepSum : List Char :=
  "def f(a)\x7bdef g()\x7breturn a".toList ++ (List.replicate 255 ['+', 'a']).flatten ++
    ";\x7d\x7d".toList

theorem deepSum_is_refused_printed : ∃ program,
    Toolchain.parse (String.ofList deepSum) = .ok program ∧ maxNesting < program.enclosures ∧
    ∃ span, Toolchain.parse program.text = .error (.parse ⟨.tooDeep, span⟩) := by
  have hrun : ((tokens deepSum).toOption.any fun toks => (parse toks).toOption.any fun program =>
      decide (maxNesting < program.enclosures)) = true := by decide +kernel
  obtain ⟨toks, htoks, hany⟩ := exists_of_any hrun
  obtain ⟨program, hprogram, hdeep⟩ := exists_of_any hany
  have hlt := of_decide_eq_true hdeep
  have hparse : Toolchain.parse (String.ofList deepSum) = .ok program := by
    rw [Toolchain.parse, String.toList_ofList, htoks]
    exact mapError_eq_ok_iff.2 hprogram
  exact ⟨program, hparse, hlt, (Program.parse_text_of_parse hparse).2.1 hlt⟩

end Source

end StackCalc
