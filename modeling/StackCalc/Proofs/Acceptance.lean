import StackCalc.Proofs.Readings

/-!
# What the grammar derives is read

A reader that comes upon the tokens of a derivation takes exactly these and gives the tree of the
derivation, provided that the tokens behind them do not go on with it. Only a limit can be in the
way, and then the error says so.
-/

open StackCalc.Source.Parser

namespace StackCalc.Source

/-- An expression before the symbol is at its end. -/
def Symbol.closes : Symbol → Bool
  | operator _ | leftParen => false
  | _ => true

namespace Precedence

/-- The ranks of the operators that stand in an expression outside of parentheses. -/
def ranks : Precedence → List Rank
  | factor => []
  | chain .multiplicative => [.multiplicative]
  | chain .additive => [.additive, .multiplicative]

/-- The tokens begin with none that would be read as part of the expression before them. -/
def Stops (precedence : Precedence) (rest : Tokens) : Prop :=
  ∀ t ∈ rest.head?, t.val ≠ .symbol .leftParen ∧
    ∀ rank ∈ precedence.ranks, rank.operator? t.val = none

variable {rank : Rank} {rest : Tokens}

theorem Stops.operand (h : Stops (chain rank) rest) : Stops rank.operand rest := by
  intro t ht
  refine ⟨(h t ht).1, fun r hr => (h t ht).2 r ?_⟩
  cases rank with
  | additive => exact List.mem_cons_of_mem _ hr
  | multiplicative => cases hr

theorem Stops.operator (h : Stops (chain rank) rest) :
    ∀ t ∈ rest.head?, rank.operator? t.val = none := by
  intro t ht
  refine (h t ht).2 rank ?_
  cases rank with
  | additive | multiplicative => exact List.mem_cons_self

theorem stops_operator {op : BinaryOp} (h : op ∈ rank.operators) (span : Span) (rest : Tokens) :
    Stops rank.operand ((Symbol.operator op).at span :: rest) := by
  rintro _ ⟨⟩
  refine ⟨(fun h => by cases h), fun r hr => ?_⟩
  cases rank with
  | additive => cases op <;> simp_all [Rank.operand, ranks, Rank.operators] <;> rfl
  | multiplicative => cases hr

/-- No expression goes on behind a symbol that is neither an operator nor opens parentheses. -/
theorem stops_symbol {s : Symbol} (h : s.closes = true) (precedence : Precedence) (span : Span)
    (rest : Tokens) : Stops precedence (s.at span :: rest) := by
  rintro _ ⟨⟩
  constructor
  · intro hparen
    cases hparen
    cases h
  · intro rank _
    rw [Option.eq_none_iff_forall_ne_some]
    intro op hop
    cases (Rank.operator?_eq_some_iff.1 hop).1
    cases h

end Precedence

namespace Parser

variable {α β : Type} {fits fits' : Prop}

/-- The result is the one wanted, unless the limits are not kept, and then it says so. -/
def Gives (fits : Prop) (result : Checked α) (x : α) : Prop :=
  result = .ok x ∨ ¬ fits ∧ ∃ span, result = .error ⟨.tooDeep, span⟩

theorem Gives.ok (x : α) : Gives fits (.ok x) x := .inl rfl

theorem Gives.tooDeep {x : α} (h : ¬ fits) (span : Span) :
    Gives fits (.error ⟨.tooDeep, span⟩) x := .inr ⟨h, span, rfl⟩

theorem Gives.bind {result : Checked α} {next : α → Checked β} {x : α} {y : β}
    (h : Gives fits result x) (hnext : Gives fits (next x) y) :
    Gives fits (result >>= next) y := by
  obtain rfl | ⟨hfits, span, rfl⟩ := h
  · exact hnext
  · exact .inr ⟨hfits, span, rfl⟩

theorem gives_taller {height : Nat} (h : fits → height + 1 ≤ maxNesting) (span : Span) :
    Gives fits (taller height span) (height + 1) := by
  unfold taller
  split
  · exact .ok _
  · next hle => exact .tooDeep (fun hfits => hle (h hfits)) span

theorem Gives.eq_ok {result : Checked α} {x : α} (h : Gives fits result x) (hfits : fits) :
    result = .ok x := h.resolve_right fun hno => hno.1 hfits

end Parser

variable (ending : Span)

/-- What reading the tokens of a derivation gives. The loop that reads a chain may go on behind
it, so a chain is told by what going on from it gives. -/
def Derivation.Reads : (N : Nonterminal) → Derivation N → Prop
  | .expression .factor, d => ∀ {levels rest} {fits : Prop}, Precedence.factor.Stops rest →
    (fits → d.nesting ≤ levels ∧ d.tree.height ≤ maxNesting) →
    Gives fits (factor ending levels (d.tokens ++ rest)) (d.tree.measured, rest)
  | .expression (.chain rank), d => ∀ {levels rest} {fits : Prop} {result},
    rank.operand.Stops rest → (fits → d.nesting ≤ levels ∧ d.tree.height ≤ maxNesting) →
    Gives fits (chain rank.operator? (rank.operand.reader ending levels) rest.length
      d.tree.measured rest) result →
    Gives fits (chained rank.operator? (rank.operand.reader ending levels) (d.tokens ++ rest))
      result
  | .call, d => ∀ {levels rest} {fits : Prop},
    (fits → d.nesting ≤ levels ∧ d.tree.height ≤ maxNesting) →
    Gives fits (factor ending levels (d.tokens ++ rest)) (d.tree.measured, rest)
  | .arguments, d => ∀ {levels rest} {fits : Prop} (place : Span),
    (fits → d.nesting ≤ levels ∧ Expr.heightOfAll d.tree ≤ maxNesting) →
    Gives fits (enclosed ending (sum (factor ending levels))
      (d.tokens ++ Symbol.rightParen.at place :: rest)) (d.tree.map Expr.measured, rest)
  | .sums, d => ∀ {levels rest} {fits : Prop} (place : Span) {toks : Tokens},
    toks = d.tokens ++ Symbol.rightParen.at place :: rest →
    (fits → d.nesting ≤ levels ∧ Expr.heightOfAll d.tree ≤ maxNesting) →
    Gives fits (separated (sum (factor ending levels)) toks.length toks)
      (d.tree.map Expr.measured, Symbol.rightParen.at place :: rest)
  | .parameters, d => ∀ {rest} (place : Span), enclosed ending (identifier ending)
    (d.tokens ++ Symbol.rightParen.at place :: rest) = .ok (d.tree, rest)
  | .names, d => ∀ {rest} (place : Span) {toks : Tokens},
    toks = d.tokens ++ Symbol.rightParen.at place :: rest →
    separated (identifier ending) toks.length toks =
      .ok (d.tree, Symbol.rightParen.at place :: rest)
  | _, _ => True

variable {ending}

theorem Derivation.Reads.reader {p : Precedence} {d : Derivation (.expression p)}
    (h : Reads ending (.expression p) d) {levels : Nat} {rest : Tokens} {fits : Prop}
    (hrest : p.Stops rest) (hfits : fits → d.nesting ≤ levels ∧ d.tree.height ≤ maxNesting) :
    Gives fits (p.reader ending levels (d.tokens ++ rest)) (d.tree.measured, rest) := by
  cases p with
  | factor => exact h hrest hfits
  | chain rank =>
      rw [Precedence.reader_chain]
      refine h hrest.operand hfits ?_
      rw [chain_stop hrest.operator]
      exact .ok _

namespace Derivation

variable {N : Nonterminal}

theorem reads_call {callee : Ident} {leftParen rightParen : Span} {args : Derivation .arguments}
    (ih : Reads ending .arguments args) :
    Reads ending .call (.call callee leftParen args rightParen) := by
  intro levels rest fits hfits
  have htokens : (call callee leftParen args rightParen).tokens ++ rest =
      callee.token :: Symbol.leftParen.at leftParen ::
        (args.tokens ++ Symbol.rightParen.at rightParen :: rest) := by
    simp [tokens]
  rw [htokens]
  cases levels with
  | zero => exact .tooDeep (fun h => Nat.not_succ_le_zero _ (hfits h).1) leftParen
  | succ levels =>
      have hargs (h : fits) : args.nesting ≤ levels ∧ Expr.heightOfAll args.tree ≤ maxNesting :=
        ⟨Nat.le_of_succ_le_succ (hfits h).1, Nat.le_of_succ_le (hfits h).2⟩
      refine (ih rightParen hargs).bind ?_
      dsimp only
      rw [foldl_max_heights, map_expr_measured, Nat.zero_max]
      exact (gives_taller (fun h => (hfits h).2) callee.span).bind (.ok _)

theorem reads_negation {minus : Span} {operand : Derivation .factor}
    (ih : Reads ending .factor operand) : Reads ending .factor (.negation minus operand) := by
  intro levels rest fits hrest hfits
  cases levels with
  | zero => exact .tooDeep (fun h => Nat.not_succ_le_zero _ (hfits h).1) minus
  | succ levels =>
      have htree : (negation minus operand).tree.measured =
          ⟨operand.tree.negate, operand.tree.height + 1⟩ := operand.tree.measured_negate
      have hheight : (negation minus operand).tree.height = operand.tree.height + 1 :=
        congrArg (·.height) htree
      rw [hheight] at hfits
      rw [htree]
      have hoperand (h : fits) : operand.nesting ≤ levels ∧ operand.tree.height ≤ maxNesting :=
        ⟨Nat.le_of_succ_le_succ (hfits h).1, Nat.le_of_succ_le (hfits h).2⟩
      exact (ih hrest hoperand).bind ((gives_taller (fun h => (hfits h).2) minus).bind (.ok _))

theorem reads_grouping {leftParen rightParen : Span} {inner : Derivation .sum}
    (ih : Reads ending .sum inner) :
    Reads ending .factor (.grouping leftParen inner rightParen) := by
  intro levels rest fits hrest hfits
  have htokens : (grouping leftParen inner rightParen).tokens ++ rest =
      Symbol.leftParen.at leftParen ::
        (inner.tokens ++ Symbol.rightParen.at rightParen :: rest) := by
    simp [tokens]
  rw [htokens]
  cases levels with
  | zero => exact .tooDeep (fun h => Nat.not_succ_le_zero _ (hfits h).1) leftParen
  | succ levels =>
      have hstops := Precedence.stops_symbol (s := .rightParen) rfl (.chain .additive)
        rightParen rest
      refine (ih.reader hstops fun h => ?_).bind (.ok _)
      exact ⟨Nat.le_of_succ_le_succ (hfits h).1, (hfits h).2⟩

theorem reads_operation {rank : Rank} {lhs : Derivation (.expression (.chain rank))}
    {op : BinaryOp} {hop : op ∈ rank.operators} {place : Span}
    {rhs : Derivation (.expression rank.operand)}
    (ih : Reads ending (.expression (.chain rank)) lhs)
    (ih' : Reads ending (.expression rank.operand) rhs) :
    Reads ending (.expression (.chain rank)) (.operation lhs op hop place rhs) := by
  intro levels rest fits result hrest hfits hlater
  have hoperator : rank.operator? ((Symbol.operator op).at place).val = some op :=
    Rank.operator?_eq_some_iff.2 ⟨rfl, hop⟩
  have hparts (h : fits) : (lhs.nesting ≤ levels ∧ lhs.tree.height ≤ maxNesting) ∧
      rhs.nesting ≤ levels ∧ rhs.tree.height ≤ maxNesting := by
    have hle := hfits h
    simp only [nesting, tree, Expr.height] at hle
    omega
  rw [tokens, List.append_assoc, List.cons_append]
  refine ih (Precedence.stops_operator hop place _) (fun h => (hparts h).1) ?_
  rw [chain_some (explained_reader ending levels rank.operand).shortens hoperator]
  refine (ih'.reader hrest fun h => (hparts h).2).bind ?_
  exact (gives_taller (fun h => (hfits h).2) place).bind hlater

theorem reads_moreSums {x : Derivation .sum} {comma : Span} {later : Derivation .sums}
    (ih : Reads ending .sum x) (ih' : Reads ending .sums later) :
    Reads ending .sums (.moreSums x comma later) := by
  rintro levels rest fits place toks rfl hfits
  have hparts (h : fits) : (x.nesting ≤ levels ∧ x.tree.height ≤ maxNesting) ∧
      later.nesting ≤ levels ∧ Expr.heightOfAll later.tree ≤ maxNesting := by
    have hle := hfits h
    simp only [nesting, tree, Expr.heightOfAll] at hle
    omega
  have hstops := Precedence.stops_symbol (s := .comma) rfl (.chain .additive) comma
    (later.tokens ++ Symbol.rightParen.at place :: rest)
  rw [separated_eq (shortens_sum ending levels), tokens, List.append_assoc, List.cons_append]
  refine (ih.reader hstops fun h => (hparts h).1).bind ?_
  exact (ih' place rfl fun h => (hparts h).2).bind (.ok _)

theorem reads_lastSum {x : Derivation .sum} (ih : Reads ending .sum x) :
    Reads ending .sums (.lastSum x) := by
  rintro levels rest fits place toks rfl hfits
  have hle (h : fits) : x.nesting ≤ levels ∧ x.tree.height ≤ maxNesting := by
    have hle := hfits h
    simp only [nesting, tree, Expr.heightOfAll] at hle
    omega
  have hstops := Precedence.stops_symbol (s := .rightParen) rfl (.chain .additive) place
    rest
  rw [separated_eq (shortens_sum ending levels), tokens]
  exact (ih.reader hstops hle).bind (.ok _)

theorem reads_someSums {sums : Derivation .sums} (ih : Reads ending .sums sums) :
    Reads ending .arguments (.someSums sums) := by
  intro levels rest fits place hfits
  obtain ⟨t, behind, htokens, ht⟩ := sums.opens
  rw [tokens, enclosed]
  · exact (ih place rfl hfits).bind (.ok _)
  · intro span behind' heq
    rw [htokens] at heq
    cases heq
    cases ht

theorem reads_moreNames {name : Ident} {comma : Span} {later : Derivation .names}
    (ih : Reads ending .names later) : Reads ending .names (.moreNames name comma later) := by
  rintro rest place toks rfl
  rw [separated_eq (Explained.shortens explains_identifier), tokens]
  exact bind_eq_ok_iff.2 ⟨_, identifier_ok.2 rfl, bind_eq_ok_iff.2 ⟨_, ih place rfl, rfl⟩⟩

theorem reads_someNames {names : Derivation .names} (ih : Reads ending .names names) :
    Reads ending .parameters (.someNames names) := by
  intro rest place
  rw [tokens, enclosed]
  · exact bind_eq_ok_iff.2 ⟨_, ih place rfl, rfl⟩
  · intro span behind heq
    cases names <;> cases heq

theorem reads (d : Derivation N) : Reads ending N d := by
  induction d with
  | noNames => exact fun _ => rfl
  | someNames names ih => exact reads_someNames ih
  | lastName name =>
      rintro rest place toks rfl
      rw [separated_eq (Explained.shortens explains_identifier)]
      rfl
  | moreNames name comma later ih => exact reads_moreNames ih
  | single x ih => exact fun hrest hfits hlater => (ih.reader hrest hfits).bind hlater
  | operation lhs op hop place rhs ih ih' => exact reads_operation ih ih'
  | negation minus operand ih => exact reads_negation ih
  | number value span =>
      intro levels rest fits _ _
      exact .inl (factor_number value)
  | named name =>
      intro levels rest fits hrest _
      refine .inl (factor_name ?_)
      rintro paren behind rfl
      exact (hrest _ rfl).1 rfl
  | calling d ih => exact fun _ hfits => ih hfits
  | grouping leftParen inner rightParen ih => exact reads_grouping ih
  | call callee leftParen args rightParen ih => exact reads_call ih
  | noSums => exact fun _ _ => .ok _
  | someSums sums ih => exact reads_someSums ih
  | lastSum x ih => exact reads_lastSum ih
  | moreSums x comma later ih ih' => exact reads_moreSums ih ih'
  | _ => trivial

theorem reader_tokens {p : Precedence} (d : Derivation (.expression p)) {levels : Nat}
    {rest : Tokens} {fits : Prop} (hrest : p.Stops rest)
    (hfits : fits → d.nesting ≤ levels ∧ d.tree.height ≤ maxNesting) :
    Gives fits (p.reader ending levels (d.tokens ++ rest)) (d.tree.measured, rest) :=
  Reads.reader d.reads hrest hfits

theorem reader_name {name : Ident} {levels : Nat} {rest : Tokens}
    (hrest : (Precedence.chain .additive).Stops rest) :
    sum (factor ending levels) (name.token :: rest) =
      .ok ((Expr.variable name).measured, rest) := by
  let product : Derivation (.expression (.chain .multiplicative)) := single (named name)
  let d : Derivation .sum := single product
  have hlimits : d.nesting ≤ levels ∧ d.tree.height ≤ maxNesting :=
    ⟨Nat.zero_le _, (by decide : 1 ≤ maxNesting)⟩
  exact (d.reader_tokens hrest fun _ => hlimits).eq_ok trivial

/-- An expression up to a semicolon. -/
theorem reads_value (value : Derivation .sum) {levels : Nat} {rest : Tokens} {fits : Prop}
    (semicolon : Span) (hfits : fits → value.nesting ≤ levels ∧ value.tree.height ≤ maxNesting) :
    Gives fits (expression ending levels
      (value.tokens ++ Symbol.semicolon.at semicolon :: rest))
      (value.tree, Symbol.semicolon.at semicolon :: rest) := by
  have hstops := Precedence.stops_symbol (s := .semicolon) rfl (.chain .additive)
    semicolon rest
  exact (value.reader_tokens hstops hfits).bind (.ok _)

/-- An expression that is a statement does not look like an assignment. -/
theorem tokens_ne_assignment (value : Derivation .sum) {semicolon equals : Span} (name : Ident)
    {rest behind : Tokens} : value.tokens ++ Symbol.semicolon.at semicolon :: rest ≠
      name.token :: Symbol.equals.at equals :: behind := by
  intro heq
  -- the same tokens read twice, up to the semicolon and up to the equals sign
  have hvalue : Gives False (sum (factor ⟨0, 0⟩ 0)
      (value.tokens ++ Symbol.semicolon.at semicolon :: rest)) _ := value.reader_tokens
    (Precedence.stops_symbol (s := .semicolon) rfl (.chain .additive) semicolon rest)
    False.elim
  have hname : sum (factor ⟨0, 0⟩ 0) (name.token :: Symbol.equals.at equals :: behind) = _ :=
    reader_name (Precedence.stops_symbol (s := .equals) rfl _ equals behind)
  rw [heq] at hvalue
  obtain hsame | ⟨-, span, hdeep⟩ := hvalue
  · cases (Prod.mk.inj (Except.ok.inj (hname.symm.trans hsame))).2
  · cases hname.symm.trans hdeep

theorem reads_evaluating (value : Derivation .sum) {semicolon : Span} {levels : Nat}
    {rest : Tokens} {fits : Prop}
    (hfits : fits → value.nesting ≤ levels ∧ value.tree.height ≤ maxNesting) :
    Gives fits (statement ending levels ((evaluating value semicolon).tokens ++ rest))
      ((evaluating value semicolon).tree, rest) := by
  obtain ⟨t, behind, htokens, ht⟩ := value.opens
  rw [tokens, List.append_assoc, List.singleton_append, statement_eval]
  · exact (value.reads_value semicolon hfits).bind (.ok _)
  · intro span behind' heq
    rw [htokens] at heq
    cases heq
    cases ht
  · intro span behind' heq
    rw [htokens] at heq
    cases heq
    cases ht
  · exact fun name span _ _ => value.tokens_ne_assignment ⟨name, span⟩

/-- What reading the tokens of statements gives, in a body and as a whole program. -/
def ReadsWhole (ending : Span) : (N : Nonterminal) → Derivation N → Prop
  | .statement, d | .definition, d => ∀ {levels rest} {fits : Prop},
    (fits → d.Fits levels) →
    Gives fits (statement ending levels (d.tokens ++ rest)) (d.tree, rest)
  | .program, d => ∀ {levels} {fits : Prop},
    (fits → d.Fits levels) →
    (∀ {rest} (place : Span) {toks : Tokens},
      toks = d.tokens ++ Symbol.rightBrace.at place :: rest →
      Gives fits (block ending (statement ending levels) toks.length toks) (d.tree, rest)) ∧
    Gives fits (statements ending (statement ending levels) d.tokens.length d.tokens) d.tree
  | _, _ => True

theorem readsWhole_next {first : Derivation .statement} {later : Derivation .program}
    (ih : ReadsWhole ending .statement first) (ih' : ReadsWhole ending .program later) :
    ReadsWhole ending .program (.next first later) := by
  intro levels fits hfits
  have hfirst (h : fits) : first.Fits levels := (fits_next_iff.1 (hfits h)).1
  have hlater (h : fits) : later.Fits levels := (fits_next_iff.1 (hfits h)).2
  obtain ⟨hblock, hwhole⟩ := ih' hlater
  obtain ⟨t, behind, htokens, ht⟩ := first.exists_head
  constructor
  · rintro rest place toks rfl
    have hread : Gives fits (statement ending levels (first.tokens ++
        (later.tokens ++ Symbol.rightBrace.at place :: rest))) _ := ih hfirst
    rw [tokens, List.append_assoc]
    rw [htokens, List.cons_append] at hread ⊢
    rw [block_next (explains_statement ending levels).advances rfl ht]
    exact hread.bind ((hblock place rfl).bind (.ok _))
  · have hread : Gives fits (statement ending levels (first.tokens ++ later.tokens)) _ :=
      ih hfirst
    rw [tokens]
    rw [htokens, List.cons_append] at hread ⊢
    rw [statements_next (explains_statement ending levels).advances]
    exact hread.bind (hwhole.bind (.ok _))

theorem readsWhole_definition {keyword : Span} {name : Ident} {leftParen : Span}
    {params : Derivation .parameters} {rightParen leftBrace : Span}
    {body : Derivation .program} {rightBrace : Span} (ih : ReadsWhole ending .program body) :
    ReadsWhole ending .definition
      (.definition keyword name leftParen params rightParen leftBrace body rightBrace) := by
  intro levels rest fits hfits
  have htokens : (definition keyword name leftParen params rightParen leftBrace body
      rightBrace).tokens ++ rest = Keyword.define.at keyword :: name.token ::
        Symbol.leftParen.at leftParen :: (params.tokens ++ Symbol.rightParen.at rightParen ::
          Symbol.leftBrace.at leftBrace ::
            (body.tokens ++ Symbol.rightBrace.at rightBrace :: rest)) := by
    simp [tokens]
  rw [htokens]
  cases levels with
  | zero => exact .tooDeep (fun h => Nat.not_succ_le_zero _ (hfits h).nesting) keyword
  | succ levels =>
      have hbody (h : fits) : body.Fits levels := by
        have hle := Nat.le_of_succ_le_succ (hfits h).nesting
        exact ⟨Nat.le_trans (Nat.le_max_right _ _) hle, (hfits h).heights⟩
      refine Gives.bind (.inl (identifier_ok.2 rfl)) ?_
      refine Gives.bind (.inl (symbol_ok.2 rfl)) ?_
      refine Gives.bind (.inl (params.reads rightParen)) ?_
      refine Gives.bind (.inl (symbol_ok.2 rfl)) ?_
      exact ((ih hbody).1 rightBrace rfl).bind (.ok _)

theorem readsWhole (d : Derivation N) : ReadsWhole ending N d := by
  induction d with
  | done =>
      intro levels fits _
      refine ⟨?_, .ok _⟩
      rintro rest place toks rfl
      exact .inl block_close
  | next first later ih ih' => exact readsWhole_next ih ih'
  | defining d ih => exact fun hfits => ih fun h => ⟨(hfits h).nesting, (hfits h).heights⟩
  | returning keyword value semicolon =>
      intro levels rest fits hfits
      have hvalue : Gives fits (expression ending levels
          (value.tokens ++ Symbol.semicolon.at semicolon :: rest)) _ := value.reads_value semicolon
        fun h => ⟨(hfits h).nesting, (hfits h).heights value.tree (List.mem_singleton_self _)⟩
      rw [tokens, List.cons_append, List.append_assoc, statement_return]
      exact hvalue.bind (.ok _)
  | assigning target equals value semicolon =>
      intro levels rest fits hfits
      have hvalue : Gives fits (expression ending levels
          (value.tokens ++ Symbol.semicolon.at semicolon :: rest)) _ := value.reads_value semicolon
        fun h => ⟨(hfits h).nesting, (hfits h).heights value.tree (List.mem_singleton_self _)⟩
      rw [tokens, List.cons_append, List.cons_append, List.append_assoc, statement_assign]
      exact hvalue.bind (.ok _)
  | evaluating value semicolon =>
      intro levels rest fits hfits
      exact reads_evaluating value
        fun h => ⟨(hfits h).nesting, (hfits h).heights value.tree (List.mem_singleton_self _)⟩
  | definition keyword name leftParen params rightParen leftBrace body rightBrace _ ih =>
      exact readsWhole_definition ih
  | _ => trivial

end Derivation

/-- A program that can be derived is read, if its derivation is within the limits; otherwise the
error is that it is too deep. -/
theorem Derivation.statements_tokens (d : Derivation .program) (ending : Span) :
    Gives d.WithinLimits
      (statements ending (statement ending maxNesting) d.tokens.length d.tokens) d.tree :=
  (d.readsWhole d.fits_iff_withinLimits.2).2

theorem Derivation.parse_tokens (d : Derivation .program) :
    Gives d.WithinLimits (parse d.tokens) d.tree := d.statements_tokens (endOf d.tokens)

end StackCalc.Source
