import StackCalc.Proofs.Expectations

/-!
# What the readers of programs read

Each reader reads off the tokens a derivation from its part of the grammar, within the limits, and
where it refuses a token a derivation begins with what is before it. This is said once of each
reader, from what is said of those inside it; whatever else is to be known of what is parsed is
told from derivations.
-/

open StackCalc.Source.Parser

namespace StackCalc.Source

def Expr.measured (e : Expr) : Measured := ⟨e, e.height⟩

namespace Rank

def operator? : Rank → Token → Option BinaryOp
  | additive => additive?
  | multiplicative => multiplicative?

theorem operator?_eq_some_iff {rank : Rank} {t : Token} {op : BinaryOp} :
    rank.operator? t = some op ↔ t = .symbol (.operator op) ∧ op ∈ rank.operators := by
  constructor
  · intro h
    cases rank with
    | additive =>
        rw [operator?, additive?.eq_def] at h
        split at h
        · cases h
          exact ⟨rfl, by simp [operators]⟩
        · cases h
          exact ⟨rfl, by simp [operators]⟩
        · cases h
    | multiplicative =>
        rw [operator?, multiplicative?.eq_def] at h
        split at h
        · cases h
          exact ⟨rfl, by simp [operators]⟩
        · cases h
          exact ⟨rfl, by simp [operators]⟩
        · cases h
  · rintro ⟨rfl, hop⟩
    cases rank with
    | additive | multiplicative => cases op <;> simp [operators] at hop <;> rfl

end Rank

namespace Precedence

/-- What reads the expressions of a precedence. -/
def reader (ending : Span) (levels : Nat) : Precedence → Reader Measured
  | factor => Parser.factor ending levels
  | chain .multiplicative => chained multiplicative? (Parser.factor ending levels)
  | chain .additive => sum (Parser.factor ending levels)

theorem reader_chain (ending : Span) (levels : Nat) (rank : Rank) :
    (chain rank).reader ending levels =
      chained rank.operator? (rank.operand.reader ending levels) := by
  cases rank <;> rfl

end Precedence

theorem Expr.height_pos (e : Expr) : 0 < e.height := by
  cases e with
  | number | «variable» => exact Nat.one_pos
  | binary | call => exact Nat.succ_pos _

theorem Expr.measured_negate (e : Expr) : e.negate.measured = ⟨e.negate, e.height + 1⟩ := by
  have hpos := e.height_pos
  simp only [measured, negate, height, Measured.mk.injEq, true_and]
  omega

theorem foldl_max_heights (es : List Expr) (least : Nat) :
    ((es.map Expr.measured).map (·.height)).foldl max least =
      max least (Expr.heightOfAll es) := by
  induction es generalizing least with
  | nil => exact (Nat.max_zero least).symm
  | cons e es ih =>
      rw [List.map_cons, List.map_cons, List.foldl_cons, ih, Expr.heightOfAll, Nat.max_assoc]
      rfl

theorem map_expr_measured (es : List Expr) : (es.map Expr.measured).map (·.expr) = es := by
  rw [List.map_map]
  exact List.map_id es

/-- The expressions in what a derivation stands for, but for the lower ones inside them. -/
def Nonterminal.expressions : (N : Nonterminal) → N.Tree → List Expr
  | program, ss => Stmt.expressionsOfAll ss
  | statement, s | definition, s => s.expressions
  | parameters, _ | names, _ => []
  | expression _, e | call, e => [e]
  | arguments, es | sums, es => es

/-- A derivation keeps the limits, with so many levels of nesting left. -/
structure Derivation.Fits {N : Nonterminal} (d : Derivation N) (levels : Nat) : Prop where
  nesting : d.nesting ≤ levels
  heights : ∀ e ∈ N.expressions d.tree, e.height ≤ maxNesting

theorem Derivation.fits_next_iff {first : Derivation .statement} {later : Derivation .program}
    {levels : Nat} :
    (next first later).Fits levels ↔ first.Fits levels ∧ later.Fits levels := by
  constructor
  · rintro ⟨hnesting, hheights⟩
    obtain ⟨hle, hle'⟩ := Nat.max_le.1 hnesting
    obtain ⟨hall, hall'⟩ := List.forall_mem_append.1 hheights
    exact ⟨⟨hle, hall⟩, ⟨hle', hall'⟩⟩
  · rintro ⟨hfirst, hlater⟩
    exact ⟨Nat.max_le.2 ⟨hfirst.nesting, hlater.nesting⟩,
      List.forall_mem_append.2 ⟨hfirst.heights, hlater.heights⟩⟩

theorem Derivation.fits_iff_withinLimits (d : Derivation .program) :
    d.Fits maxNesting ↔ d.WithinLimits := by
  have hdepths := d.depths_le_iff (Nat.zero_le maxNesting)
  rw [Nat.zero_add] at hdepths
  exact ⟨fun h => ⟨hdepths.2 h.nesting, h.heights⟩, fun h => ⟨hdepths.1 h.depths, h.heights⟩⟩

namespace Nonterminal

variable {α : Type} {N : Nonterminal} {levels : Nat} {view : N.Tree → α} {x : α} {s : Symbol}
  {front : Tokens}

/-- These are the first tokens of a derivation. -/
def Begins (N : Nonterminal) (front : Tokens) : Prop := ∃ d : Derivation N, front <+: d.tokens

/-- These are the tokens of a derivation within the limits, whose tree is seen as `x`. -/
def Reads (N : Nonterminal) (levels : Nat) (view : N.Tree → α) (x : α) (front : Tokens) : Prop :=
  ∃ d : Derivation N, d.Fits levels ∧ x = view d.tree ∧ front = d.tokens

/-- These are the first tokens of a derivation and a symbol that closes it. -/
def BeginsClosed (N : Nonterminal) (s : Symbol) (front : Tokens) : Prop :=
  ∃ (d : Derivation N) (span : Span), front <+: d.tokens ++ [s.at span]

def ReadsClosed (N : Nonterminal) (s : Symbol) (levels : Nat) (view : N.Tree → α) (x : α)
    (front : Tokens) : Prop :=
  ∃ (d : Derivation N) (span : Span), d.Fits levels ∧ x = view d.tree ∧
    front = d.tokens ++ [s.at span]

theorem Begins.shorter {front' : Tokens} (h : Begins N front) (hfront : front' <+: front) :
    Begins N front' := by
  obtain ⟨d, hd⟩ := h
  exact ⟨d, hfront.trans hd⟩

theorem Begins.closed (h : Begins N front) (s : Symbol) : BeginsClosed N s front := by
  obtain ⟨d, hd⟩ := h
  exact ⟨d, ⟨0, 0⟩, hd.trans (List.prefix_append _ _)⟩

end Nonterminal

open Nonterminal

/-- The reader of the expressions of a precedence is accounted for. -/
abbrev Precedence.Explained (ending : Span) (levels : Nat) (precedence : Precedence) : Prop :=
  Parser.Explained ending (Begins (.expression precedence))
    (Reads (.expression precedence) levels Expr.measured) (precedence.reader ending levels)

/-- The reader of statements is accounted for. -/
abbrev Parser.StatementExplained (ending : Span) (levels : Nat) (reader : Reader Stmt) : Prop :=
  Explained ending (Begins .statement) (Reads .statement levels id) reader

namespace Parser

variable {ending : Span} {levels : Nat} {all : Tokens}

section Chain

variable {rank : Rank} {lhs : Derivation (.expression (.chain rank))} {op : BinaryOp}

theorem begins_operation (hop : op ∈ rank.operators) {place : Span} {front : Tokens}
    (h : Begins (.expression rank.operand) front) :
    Begins (.expression (.chain rank))
      (lhs.tokens ++ (Symbol.operator op).at place :: front) := by
  obtain ⟨rhs, later, hrhs⟩ := h
  exact ⟨.operation lhs op hop place rhs, later, by simp [Derivation.tokens, ← hrhs]⟩

theorem fits_operation (hop : op ∈ rank.operators) (place : Span)
    {rhs : Derivation (.expression rank.operand)} (hlhs : lhs.Fits levels)
    (hrhs : rhs.Fits levels) (hheight : max lhs.tree.height rhs.tree.height + 1 ≤ maxNesting) :
    (Derivation.operation lhs op hop place rhs).Fits levels where
  nesting := Nat.max_le.2 ⟨hlhs.nesting, hrhs.nesting⟩
  heights := List.forall_mem_singleton.2 hheight

theorem explains_chain (hoperand : rank.operand.Explained ending levels)
    (lhs : Derivation (.expression (.chain rank))) (hlhs : lhs.Fits levels) (tokens : Tokens) :
    Explains ending all (fun front => Begins (.expression (.chain rank)) (lhs.tokens ++ front))
      (fun x front => Reads (.expression (.chain rank)) levels Expr.measured x
        (lhs.tokens ++ front))
      (fun toks => chain rank.operator? (rank.operand.reader ending levels) toks.length
        lhs.tree.measured toks) tokens := by
  induction hlength : tokens.length using Nat.strongRecOn generalizing tokens lhs with
  | ind length ih =>
      subst hlength
      by_cases hoperator : ∃ t op, tokens.head? = some t ∧ rank.operator? t.val = some op
      · obtain ⟨⟨t, place⟩, op, hhead, hop⟩ := hoperator
        obtain ⟨rest, rfl⟩ := List.head?_eq_some_iff.1 hhead
        refine .cons _ (fun ht => ?_) fun toks => chain_some hoperand.shortens hop
        obtain ⟨rfl, hmem⟩ := Rank.operator?_eq_some_iff.1 hop
        refine .bind ((hoperand all rest).imp (fun _ => begins_operation hmem)
          fun _ _ hrhs => hrhs) ?_
        rintro _ _ left rfl ⟨rhs, hrhs, rfl, rfl⟩
        refine .taller ht fun hheight => ?_
        have hshorter : left.length < (⟨.symbol (.operator op), place⟩ ::
            (rhs.tokens ++ left)).length := by
          rw [List.length_cons, List.length_append]
          omega
        have hlater := ih _ hshorter _ (fits_operation hmem place hlhs hrhs hheight) left rfl
        simp only [Derivation.tokens, List.append_assoc, List.cons_append] at hlater
        exact hlater
      · refine .done (x := lhs.tree.measured) ⟨lhs, hlhs, rfl, List.append_nil _⟩ ?_
        refine fun rest' hhead => chain_stop fun t ht => ?_
        rw [Option.eq_none_iff_forall_ne_some]
        exact fun op hop => hoperator ⟨t, op, hhead ▸ ht, hop⟩

theorem explained_chain (rank : Rank) (hoperand : rank.operand.Explained ending levels) :
    (Precedence.chain rank).Explained ending levels := by
  intro all tokens
  rw [Precedence.reader_chain]
  refine .bind ((hoperand all tokens).imp ?_ fun _ _ hx => hx) ?_
  · rintro front ⟨x, hx⟩
    exact ⟨.single x, hx⟩
  · rintro _ _ rest - ⟨x, hfits, rfl, rfl⟩
    exact explains_chain hoperand (.single x) ⟨hfits.nesting, hfits.heights⟩ rest

end Chain

section Factor

variable {place : Span} {rest : Tokens}

theorem explained_sum (h : Precedence.factor.Explained ending levels) :
    (Precedence.chain .additive).Explained ending levels :=
  explained_chain .additive (explained_chain .multiplicative h)

theorem lists_sums (levels : Nat) : Lists (Begins .sum) (Reads .sum levels Expr.measured)
    (Begins .sums) (Reads .sums levels (List.map Expr.measured)) where
  first := by
    rintro front ⟨x, hx⟩
    exact ⟨.lastSum x, hx⟩
  last := by
    rintro _ _ ⟨x, hfits, rfl, rfl⟩
    exact ⟨.lastSum x, ⟨hfits.nesting, hfits.heights⟩, rfl, rfl⟩
  later := by
    rintro _ _ later comma ⟨x, -, rfl, rfl⟩ ⟨xs, behind, hxs⟩
    exact ⟨.moreSums x comma xs, behind, by simp [Derivation.tokens, ← hxs]⟩
  more := by
    rintro _ _ _ _ comma ⟨x, hfits, rfl, rfl⟩ ⟨xs, hfits', rfl, rfl⟩
    refine ⟨.moreSums x comma xs, ⟨Nat.max_le.2 ⟨hfits.nesting, hfits'.nesting⟩, ?_⟩, rfl, rfl⟩
    exact List.forall_mem_cons.2 ⟨hfits.heights _ (List.mem_singleton_self _), hfits'.heights⟩

theorem explains_arguments (h : Precedence.factor.Explained ending levels) :
    Explained ending (BeginsClosed .arguments .rightParen)
      (ReadsClosed .arguments .rightParen levels (List.map Expr.measured))
      (enclosed ending (sum (factor ending levels))) := by
  refine explains_enclosed (explains_separated (lists_sums levels) (explained_sum h)) ?_ ?_ ?_ ?_
  · rintro front ⟨xs, hxs⟩
    exact Begins.closed ⟨.someSums xs, hxs⟩ _
  · rintro _ _ ⟨xs, -, rfl, rfl⟩
    exact Begins.closed ⟨.someSums xs, List.prefix_rfl⟩ _
  · exact fun span => ⟨.noSums, span, ⟨Nat.zero_le _, List.forall_mem_nil _⟩, rfl, rfl⟩
  · rintro _ _ span ⟨xs, hfits, rfl, rfl⟩
    exact ⟨.someSums xs, span, ⟨hfits.nesting, hfits.heights⟩, rfl, rfl⟩

section Enclosing

variable (ih : Precedence.factor.Explained ending levels)

include ih

theorem explains_negation :
    Explains ending all (Begins .factor) (Reads .factor (levels + 1) Expr.measured)
      (factor ending (levels + 1)) ((Symbol.operator .sub).at place :: rest) := by
  refine .cons _ (fun ht => ?_) fun toks => factor_negation
  refine .bind ((ih all rest).imp ?_ fun _ _ hx => hx) ?_
  · rintro front ⟨x, later, hx⟩
    exact ⟨.negation place x, later, by simp [Derivation.tokens, ← hx]⟩
  · rintro _ _ left - ⟨x, hfits, rfl, rfl⟩
    refine .taller ht fun hheight => .done ?_ fun rest' _ => rfl
    have htree : (Derivation.negation place x).tree.measured = _ := x.tree.measured_negate
    refine ⟨.negation place x, ⟨Nat.succ_le_succ hfits.nesting, ?_⟩, htree.symm, ?_⟩
    · have hsame := congrArg Measured.height htree
      exact List.forall_mem_singleton.2 (Nat.le_trans (Nat.le_of_eq hsame) hheight)
    · rw [List.append_nil, Derivation.tokens]

theorem explains_call (callee : Ident) :
    Explains ending all (Begins .factor) (Reads .factor (levels + 1) Expr.measured)
      (factor ending (levels + 1)) (callee.token :: Symbol.leftParen.at place :: rest) := by
  refine .cons (fun toks => factor ending (levels + 1) (callee.token :: toks))
    (fun ht => .cons _ (fun _ => ?_) fun toks => factor_call callee.val place) fun toks => rfl
  refine .bind ((explains_arguments ih all rest).imp ?_ fun _ _ hxs => hxs) ?_
  · rintro front ⟨args, span, later, hargs⟩
    exact ⟨.calling (.call callee place args span), later, by simp [Derivation.tokens, ← hargs]⟩
  · rintro _ _ left - ⟨args, span, hfits, rfl, rfl⟩
    dsimp only
    rw [foldl_max_heights, map_expr_measured, Nat.zero_max]
    refine .taller ht fun hheight => .done ?_ fun rest' _ => rfl
    refine ⟨.calling (.call callee place args span), ⟨Nat.succ_le_succ hfits.nesting, ?_⟩, rfl,
      ?_⟩
    · exact List.forall_mem_singleton.2 hheight
    · rw [List.append_nil, Derivation.tokens, Derivation.tokens]

theorem explains_grouping :
    Explains ending all (Begins .factor) (Reads .factor (levels + 1) Expr.measured)
      (factor ending (levels + 1)) (Symbol.leftParen.at place :: rest) := by
  have hbegins {front : Tokens} (h : BeginsClosed .sum .rightParen front) :
      Begins .factor (Symbol.leftParen.at place :: front) := by
    obtain ⟨x, span, later, hx⟩ := h
    exact ⟨.grouping place x span, later, by simp [Derivation.tokens, ← hx]⟩
  refine .cons _ (fun _ => ?_) fun toks => factor_grouping
  refine .bind ((explained_sum ih all rest).imp
    (fun _ hfront => hbegins (hfront.closed _)) fun _ _ hx => hx) ?_
  rintro _ _ left - ⟨x, hfits, rfl, rfl⟩
  refine .bind (explains_symbol .rightParen ?_ all left) ?_
  · rw [List.append_nil]
    exact hbegins ⟨x, ⟨0, 0⟩, List.prefix_append _ _⟩
  · rintro span _ left' - rfl
    refine .done ?_ fun rest' _ => rfl
    exact ⟨.grouping place x span, ⟨Nat.succ_le_succ hfits.nesting, hfits.heights⟩, rfl, rfl⟩

end Enclosing

/-- A name behind which no parenthesis opens. -/
theorem explains_name (name : Ident)
    (hparen : ∀ span, rest.head? ≠ some (Symbol.leftParen.at span)) :
    Explains ending all (Begins .factor) (Reads .factor levels Expr.measured)
      (factor ending levels) (name.token :: rest) := by
  refine .cons (fun toks => factor ending levels (name.token :: toks)) (fun _ => ?_)
    fun toks => rfl
  refine .done (x := (Expr.variable name).measured) ⟨.named name, ⟨Nat.zero_le _, ?_⟩, rfl, rfl⟩
    fun rest' hhead => factor_name ?_
  · exact List.forall_mem_singleton.2 (by decide : 1 ≤ maxNesting)
  · rintro span behind rfl
    exact hparen span hhead.symm

theorem explains_number (value : Number) :
    Explains ending all (Begins .factor) (Reads .factor levels Expr.measured)
      (factor ending levels) (⟨.number value, place⟩ :: rest) := by
  refine .cons (fun toks => .ok ((Expr.number value).measured, toks))
    (fun _ => .done ⟨.number value place, ⟨Nat.zero_le _, ?_⟩, rfl, rfl⟩ fun rest' _ => rfl)
    fun toks => factor_number value
  exact List.forall_mem_singleton.2 (by decide : 1 ≤ maxNesting)

theorem opensFactor_symbol {s : Symbol} (h : opensFactor (.symbol s) = true) :
    s = .operator .sub ∨ s = .leftParen := by
  cases s with
  | operator op =>
      cases op with
      | sub => exact .inl rfl
      | add | mul | div => cases h
  | leftParen => exact .inr rfl
  | rightParen | leftBrace | rightBrace | equals | semicolon | comma => cases h

/-- A factor at a level, given what is read a level further in. -/
theorem explained_factor_of_inner
    (ih : ∀ inner, levels = inner + 1 → Precedence.factor.Explained ending inner) :
    Precedence.factor.Explained ending levels := by
  intro all tokens
  dsimp only [Precedence.reader]
  by_cases hopens : ∃ t, tokens.head? = some t ∧ opensFactor t.val = true
  · obtain ⟨⟨t, span⟩, hhead, hopens⟩ := hopens
    obtain ⟨rest, rfl⟩ := List.head?_eq_some_iff.1 hhead
    cases t with
    | number value => exact explains_number value
    | keyword k => cases hopens
    | identifier name =>
        by_cases hparen : ∃ paren, rest.head? = some (Symbol.leftParen.at paren)
        · obtain ⟨paren, hhead⟩ := hparen
          obtain ⟨behind, rfl⟩ := List.head?_eq_some_iff.1 hhead
          cases levels with
          | zero => exact .tooDeep (List.mem_cons_of_mem _ List.mem_cons_self) rfl
          | succ inner => exact explains_call (ih inner rfl) ⟨name, span⟩
        · exact explains_name ⟨name, span⟩ fun paren hhead => hparen ⟨paren, hhead⟩
    | symbol s =>
        obtain rfl | rfl := opensFactor_symbol hopens
        · cases levels with
          | zero => exact .tooDeep List.mem_cons_self rfl
          | succ inner => exact explains_negation (ih inner rfl)
        · cases levels with
          | zero => exact .tooDeep List.mem_cons_self rfl
          | succ inner => exact explains_grouping (ih inner rfl)
  · refine .refuse _ ⟨.number .zero ⟨0, 0⟩, List.nil_prefix⟩ fun rest' hhead =>
      factor_refuse fun t ht => ?_
    rw [Bool.eq_false_iff]
    exact fun hopen => hopens ⟨t, hhead ▸ ht, hopen⟩

theorem explained_factor (ending : Span) (levels : Nat) :
    Precedence.factor.Explained ending levels := by
  induction levels with
  | zero => exact explained_factor_of_inner fun inner h => by omega
  | succ levels ih =>
      refine explained_factor_of_inner fun inner h => ?_
      obtain rfl : levels = inner := by omega
      exact ih

end Factor

theorem explained_reader (ending : Span) (levels : Nat) (precedence : Precedence) :
    precedence.Explained ending levels := by
  cases precedence with
  | factor => exact explained_factor ending levels
  | chain rank =>
      cases rank with
      | additive => exact explained_sum (explained_factor ending levels)
      | multiplicative => exact explained_chain .multiplicative (explained_factor ending levels)

theorem shortens_sum (ending : Span) (levels : Nat) :
    Shortens (sum (factor ending levels)) :=
  (explained_sum (explained_factor ending levels)).shortens

variable {tokens rest : Tokens}

theorem explains_expression (ending : Span) (levels : Nat) :
    Explained ending (Begins .sum) (Reads .sum levels id) (expression ending levels) := by
  intro all tokens
  refine .bind (explained_sum (explained_factor ending levels) all tokens) ?_
  rintro _ _ rest - ⟨x, hfits, rfl, rfl⟩
  exact .done ⟨x, hfits, rfl, List.append_nil _⟩ fun rest' _ => rfl

/-- An expression and a semicolon behind it make a statement. -/
theorem explains_value (before : Tokens) (say : Derivation .sum → Span → Derivation .statement)
    (said : Expr → Span → Stmt)
    (htree : ∀ value span, (say value span).tree = said value.tree span)
    (htokens : ∀ value span, (say value span).tokens =
      before ++ (value.tokens ++ [Symbol.semicolon.at span]))
    (hfits : ∀ {value} span, value.Fits levels → (say value span).Fits levels) :
    Explained ending (fun front => Begins .statement (before ++ front))
      (fun s front => Reads .statement levels id s (before ++ front)) (fun toks => do
        let (value, rest) ← expression ending levels toks
        let (last, rest) ← symbol ending .semicolon rest
        return (said value last, rest)) := by
  intro all tokens
  have hbegins {front : Tokens} (hfront : Begins .sum front) :
      Begins .statement (before ++ front) := by
    obtain ⟨value, hvalue⟩ := hfront
    refine ⟨say value ⟨0, 0⟩, ?_⟩
    rw [htokens, List.prefix_append_right_inj]
    exact hvalue.trans (List.prefix_append _ _)
  refine .bind ((explains_expression ending levels all tokens).imp (fun _ => hbegins)
    fun _ _ hvalue => hvalue) ?_
  rintro _ _ rest - ⟨value, hvalue, rfl, rfl⟩
  refine .bind (explains_symbol .semicolon ?_ all rest) ?_
  · rw [List.append_nil]
    exact hbegins ⟨value, List.prefix_rfl⟩
  · rintro span _ left - rfl
    refine .done ⟨say value span, hfits span hvalue, (htree value span).symm, ?_⟩ fun rest' _ => rfl
    rw [htokens, List.append_nil]

theorem explains_returning (keyword : Span) (rest : Tokens) :
    Explains ending all (Begins .statement) (Reads .statement levels id)
      (statement ending levels) (Keyword.giveBack.at keyword :: rest) := by
  refine .cons _ (fun _ => ?_) fun toks => statement_return
  exact explains_value [Keyword.giveBack.at keyword] (.returning keyword)
    (fun value last => .giveBack value ⟨keyword.start, last.stop⟩) (fun _ _ => rfl)
    (fun _ _ => rfl) (fun _ hfits => ⟨hfits.nesting, hfits.heights⟩) all rest

theorem explains_assigning (target : Ident) (equals : Span) (rest : Tokens) :
    Explains ending all (Begins .statement) (Reads .statement levels id)
      (statement ending levels) (target.token :: Symbol.equals.at equals :: rest) := by
  refine .cons (fun toks => statement ending levels (target.token :: toks))
    (fun _ => .cons _ (fun _ => ?_) fun toks => statement_assign) fun toks => rfl
  exact explains_value [target.token, Symbol.equals.at equals] (.assigning target equals)
    (fun value _ => .assign target value) (fun _ _ => rfl) (fun _ _ => rfl)
    (fun _ hfits => ⟨hfits.nesting, hfits.heights⟩) all rest

/-- What reads an expression that is a statement. -/
def evaluated (ending : Span) (levels : Nat) : Reader Stmt := fun toks => do
  let (value, rest) ← expression ending levels toks
  let (_, rest) ← symbol ending .semicolon rest
  return (.eval value, rest)

theorem explains_evaluated : StatementExplained ending levels (evaluated ending levels) :=
  explains_value [] .evaluating (fun value _ => .eval value) (fun _ _ => rfl) (fun _ _ => rfl)
    (fun _ hfits => ⟨hfits.nesting, hfits.heights⟩)

/-- Keywords and names, which only a second look tells apart from the beginning of a value. -/
def isWord : Token → Bool
  | .keyword _ | .identifier _ => true
  | _ => false

theorem explains_evaluating (h : ∀ t ∈ tokens.head?, isWord t.val = false) :
    Explains ending all (Begins .statement) (Reads .statement levels id)
      (statement ending levels) tokens := by
  refine .congr _ (explains_evaluated all tokens) fun toks hsame => ?_
  rw [← hsame] at h
  refine statement_eval ?_ ?_ ?_
  · rintro span behind rfl
    cases h _ rfl
  · rintro span behind rfl
    cases h _ rfl
  · rintro name span span' behind rfl
    cases h _ rfl

/-- A name that is not assigned to begins an expression. -/
theorem explains_evaluating_name (name : Ident)
    (hequals : ∀ span, rest.head? ≠ some (Symbol.equals.at span)) :
    Explains ending all (Begins .statement) (Reads .statement levels id)
      (statement ending levels) (name.token :: rest) := by
  have htake : evaluated ending levels [name.token] = refuse ending (.symbol .semicolon) [] := by
    have hname : factor ending levels [name.token] = .ok ((Expr.variable name).measured, []) :=
      factor_name fun paren behind h => by cases h
    simp only [evaluated, expression, sum, chained, hname]
    rfl
  refine .congr_behind _ (explains_evaluated all _) htake fun toks hsame => ?_
  refine statement_eval (fun _ _ h => by cases h) (fun _ _ h => by cases h) ?_
  rintro _ _ equals behind ⟨⟩
  exact hequals equals hsame.symm

theorem lists_names (levels : Nat) : Lists (· = []) (fun name front => front = [name.token])
    (Begins .names) (Reads .names levels id) where
  first := by
    rintro _ rfl
    exact ⟨.lastName ⟨"", ⟨0, 0⟩⟩, List.nil_prefix⟩
  last := by
    rintro name _ rfl
    exact ⟨.lastName name, ⟨Nat.zero_le _, List.forall_mem_nil _⟩, rfl, rfl⟩
  later := by
    rintro name _ later comma rfl ⟨names, behind, hnames⟩
    exact ⟨.moreNames name comma names, behind, by simp [Derivation.tokens, ← hnames]⟩
  more := by
    rintro name _ _ _ comma rfl ⟨names, hfits, rfl, rfl⟩
    exact ⟨.moreNames name comma names, ⟨hfits.nesting, List.forall_mem_nil _⟩, rfl, rfl⟩

theorem explains_parameters (ending : Span) (levels : Nat) :
    Explained ending (BeginsClosed .parameters .rightParen)
      (ReadsClosed .parameters .rightParen levels id)
      (enclosed ending (identifier ending)) := by
  refine explains_enclosed (explains_separated (lists_names levels) explains_identifier)
    ?_ ?_ ?_ ?_
  · rintro front ⟨names, hnames⟩
    exact Begins.closed ⟨.someNames names, hnames⟩ _
  · rintro _ _ ⟨names, -, rfl, rfl⟩
    exact Begins.closed ⟨.someNames names, List.prefix_rfl⟩ _
  · exact fun span => ⟨.noNames, span, ⟨Nat.zero_le _, List.forall_mem_nil _⟩, rfl, rfl⟩
  · rintro _ _ span ⟨names, hfits, rfl, rfl⟩
    exact ⟨.someNames names, span, ⟨hfits.nesting, List.forall_mem_nil _⟩, rfl, rfl⟩

section Bodies

variable {reader : Reader Stmt}

theorem begins_next {first : Derivation .statement} {front : Tokens} {s : Symbol}
    (h : BeginsClosed .program s front) : BeginsClosed .program s (first.tokens ++ front) := by
  obtain ⟨later, span, behind, hlater⟩ := h
  exact ⟨.next first later, span, behind, by simp [Derivation.tokens, ← hlater]⟩

theorem begins_first {front : Tokens} (h : Begins .statement front) : Begins .program front := by
  obtain ⟨first, hfirst⟩ := h
  refine ⟨.next first .done, ?_⟩
  rwa [Derivation.tokens, Derivation.tokens, List.append_nil]

/-- A statement takes tokens off those that are left. -/
theorem length_lt_of_statement {first : Derivation .statement}
    (h : tokens = first.tokens ++ rest) : rest.length < tokens.length := by
  obtain ⟨t, behind, hfirst, -⟩ := first.exists_head
  rw [h, hfirst, List.length_append, List.length_cons]
  omega

theorem StatementExplained.advances (h : StatementExplained ending levels reader) :
    Advances reader := by
  intro tokens s rest hr
  have hread := h tokens tokens (List.Subset.refl tokens)
  rw [hr] at hread
  obtain ⟨front, hfront, ⟨first, -, -, rfl⟩, -⟩ := hread
  exact length_lt_of_statement hfront

theorem explains_block (h : StatementExplained ending levels reader) :
    Explained ending (BeginsClosed .program .rightBrace)
      (ReadsClosed .program .rightBrace levels id)
      (fun toks => block ending reader toks.length toks) := by
  intro all tokens
  induction hlength : tokens.length using Nat.strongRecOn generalizing tokens with
  | ind length ih =>
      subst hlength
      cases tokens with
      | nil =>
          refine .refuse (.symbol .rightBrace) ⟨.done, ⟨0, 0⟩, List.nil_prefix⟩
            fun rest' hhead => ?_
          rw [List.head?_eq_none_iff.1 hhead, block_nil]
      | cons t rest =>
          by_cases hbrace : t.val = .symbol .rightBrace
          · obtain ⟨t, span⟩ := t
            cases hbrace
            exact .cons (fun rest => .ok ([], rest))
              (fun _ => .done ⟨.done, span, ⟨Nat.zero_le _, List.forall_mem_nil _⟩, rfl, rfl⟩
                fun rest' _ => rfl)
              fun toks => block_close
          · refine .congr _ ?_ fun toks hhead => block_next h.advances hhead hbrace
            refine .bind ((h all (t :: rest)).imp (fun _ hfront => (begins_first hfront).closed _)
              fun _ _ hs => hs) ?_
            rintro _ _ left htokens ⟨first, hfits, rfl, rfl⟩
            refine .bind ((ih _ (length_lt_of_statement htokens) left rfl).imp
              (fun _ => begins_next) fun _ _ hss => hss) ?_
            rintro _ _ left' - ⟨later, span, hfits', rfl, rfl⟩
            have hboth := Derivation.fits_next_iff.2 ⟨hfits, hfits'⟩
            refine .done ⟨.next first later, span, hboth, rfl, ?_⟩ fun rest' _ => rfl
            simp [Derivation.tokens]

end Bodies

section Definition

variable {keyword leftParen rightParen leftBrace : Span} {name : Ident}
  {params : Derivation .parameters} {front : Tokens}

theorem begins_parameters (h : BeginsClosed .parameters .rightParen front) :
    Begins .statement (Keyword.define.at keyword :: name.token ::
      Symbol.leftParen.at leftParen :: front) := by
  obtain ⟨params, span, hparams⟩ := h
  have hlater : front <+: params.tokens ++ [Symbol.rightParen.at span,
      Symbol.leftBrace.at span, Symbol.rightBrace.at span] :=
    hparams.trans ((List.prefix_append_right_inj _).2 ⟨_, rfl⟩)
  exact ⟨.defining (.definition keyword name leftParen params span span .done span),
    (List.prefix_append_right_inj [Keyword.define.at keyword, name.token, _]).2 hlater⟩

theorem begins_body (h : BeginsClosed .program .rightBrace front) :
    Begins .statement (Keyword.define.at keyword :: name.token ::
      Symbol.leftParen.at leftParen :: (params.tokens ++ Symbol.rightParen.at rightParen ::
        Symbol.leftBrace.at leftBrace :: front)) := by
  obtain ⟨body, span, behind, hbody⟩ := h
  exact ⟨.defining (.definition keyword name leftParen params rightParen leftBrace body span),
    behind, by simp [Derivation.tokens, ← hbody]⟩

theorem explains_definition {reader : Reader Stmt}
    (h : StatementExplained ending levels reader) :
    Explained ending (fun front => Begins .statement (Keyword.define.at keyword :: front))
      (fun s front => Reads .statement (levels + 1) id s (Keyword.define.at keyword :: front))
      (definition ending reader) := by
  intro all tokens
  have hnone : BeginsClosed .parameters .rightParen [] :=
    Begins.closed ⟨.noNames, List.prefix_rfl⟩ _
  have hname (name : Ident) : Begins .statement [Keyword.define.at keyword, name.token,
      Symbol.leftParen.at ⟨0, 0⟩] := begins_parameters hnone
  refine .bind ((explains_identifier all tokens).imp ?_ fun _ _ hname => hname) ?_
  · rintro _ rfl
    exact (hname ⟨"", ⟨0, 0⟩⟩).shorter ⟨_, rfl⟩
  rintro name _ rest - rfl
  refine .bind (explains_symbol .leftParen ?_ all rest) ?_
  · exact (hname name).shorter ⟨_, rfl⟩
  rintro leftParen _ rest - rfl
  refine .bind ((explains_parameters ending levels all rest).imp (fun _ => begins_parameters)
    fun _ _ hparams => hparams) ?_
  rintro _ _ rest - ⟨params, rightParen, hparams, rfl, rfl⟩
  have hbody (leftBrace : Span) {front : Tokens} (h : BeginsClosed .program .rightBrace front) :
      Begins .statement (Keyword.define.at keyword :: ([name.token] ++
        ([Symbol.leftParen.at leftParen] ++ ((params.tokens ++ [Symbol.rightParen.at rightParen]) ++
          ([Symbol.leftBrace.at leftBrace] ++ front))))) := by
    rw [List.append_assoc params.tokens]
    exact begins_body h
  refine .bind (explains_symbol .leftBrace ?_ all rest) ?_
  · refine (hbody ⟨0, 0⟩ (Begins.closed ⟨.done, List.nil_prefix⟩ _)).shorter ?_
    exact ⟨[Symbol.leftBrace.at ⟨0, 0⟩], by simp⟩
  rintro leftBrace _ rest - rfl
  refine .bind ((explains_block h all rest).imp (fun _ hfront => hbody leftBrace hfront)
    fun _ _ hstatements => hstatements) ?_
  rintro _ _ rest - ⟨body, rightBrace, hstatements, rfl, rfl⟩
  refine .done ?_ fun rest' _ => rfl
  refine ⟨.defining (.definition keyword name leftParen params rightParen leftBrace body
    rightBrace), ⟨?_, hstatements.heights⟩, rfl, by simp [Derivation.tokens]⟩
  exact Nat.succ_le_succ (Nat.max_le.2 ⟨hparams.nesting, hstatements.nesting⟩)

end Definition

/-- A statement, given what is read a level further in. -/
theorem explains_statement_of_inner
    (ih : ∀ inner, levels = inner + 1 → StatementExplained ending inner (statement ending inner)) :
    StatementExplained ending levels (statement ending levels) := by
  intro all tokens
  cases tokens with
  | nil => exact explains_evaluating fun t ht => by cases ht
  | cons t rest =>
      obtain ⟨t, span⟩ := t
      cases t with
      | number value => exact explains_evaluating fun t ht => by cases ht; rfl
      | symbol s => exact explains_evaluating fun t ht => by cases ht; rfl
      | identifier name =>
          by_cases hequals : ∃ equals, rest.head? = some (Symbol.equals.at equals)
          · obtain ⟨equals, hhead⟩ := hequals
            obtain ⟨behind, rfl⟩ := List.head?_eq_some_iff.1 hhead
            exact explains_assigning ⟨name, span⟩ equals behind
          · exact explains_evaluating_name ⟨name, span⟩ fun equals hhead => hequals ⟨equals, hhead⟩
      | keyword k =>
          cases k with
          | giveBack => exact explains_returning span rest
          | define =>
              cases levels with
              | zero => exact .tooDeep List.mem_cons_self rfl
              | succ inner =>
                  exact .cons _ (fun _ => explains_definition (ih inner rfl) all rest)
                    fun toks => statement_define

theorem explains_statement (ending : Span) (levels : Nat) :
    StatementExplained ending levels (statement ending levels) := by
  induction levels with
  | zero => exact explains_statement_of_inner fun inner h => by omega
  | succ levels ih =>
      refine explains_statement_of_inner fun inner h => ?_
      obtain rfl : levels = inner := by omega
      exact ih

/-- A whole program, behind which nothing is left. -/
def whole (ending : Span) (levels : Nat) : Reader Program := fun tokens => do
  let program ← statements ending (statement ending levels) tokens.length tokens
  return (program, [])

theorem whole_next {t : Located Token} (hhead : tokens.head? = some t) :
    whole ending levels tokens = (do
      let (s, rest) ← statement ending levels tokens
      let (ss, rest) ← whole ending levels rest
      return (s :: ss, rest)) := by
  obtain ⟨rest, rfl⟩ := List.head?_eq_some_iff.1 hhead
  unfold whole
  rw [statements_next (explains_statement ending levels).advances]
  simp only [bind_assoc, pure_bind]

theorem explains_whole (ending : Span) (levels : Nat) :
    Explained ending (Begins .program) (Reads .program levels id) (whole ending levels) := by
  intro all tokens
  induction hlength : tokens.length using Nat.strongRecOn generalizing tokens with
  | ind length ih =>
      subst hlength
      cases tokens with
      | nil =>
          refine .done ⟨.done, ⟨Nat.zero_le _, List.forall_mem_nil _⟩, rfl, rfl⟩
            fun rest' hhead => ?_
          rw [List.head?_eq_none_iff.1 hhead]
          rfl
      | cons t rest =>
          refine .congr _ ?_ fun toks hhead => whole_next hhead
          refine .bind ((explains_statement ending levels all (t :: rest)).imp
            (fun _ => begins_first) fun _ _ hs => hs) ?_
          rintro _ _ left htokens ⟨first, hfits, rfl, rfl⟩
          refine .bind ((ih _ (length_lt_of_statement htokens) left rfl).imp ?_
            fun _ _ hss => hss) ?_
          · rintro front ⟨later, hlater⟩
            exact ⟨.next first later, (List.prefix_append_right_inj _).2 hlater⟩
          · rintro _ _ left' - ⟨later, hfits', rfl, rfl⟩
            refine .done ⟨.next first later, Derivation.fits_next_iff.2 ⟨hfits, hfits'⟩, rfl, ?_⟩
              fun rest' _ => rfl
            rw [List.append_nil, Derivation.tokens]

end Parser

end StackCalc.Source
