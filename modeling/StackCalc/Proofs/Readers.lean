import StackCalc.Proofs.Grammar
import StackCalc.Proofs.Outcome

/-!
# Readers without fuel

What a reader does is told once, by equations that say which tokens it looks at. Where it goes round
in a loop, the number of tokens is fuel enough as long as the reader inside leaves no more tokens
than it was given, or fewer, so that each round can be told without fuel.
-/

namespace StackCalc.Source.Parser

variable {α : Type} {ending : Span} {levels fuel : Nat} {span : Span} {tokens rest : Tokens}

/-- What is left is not longer. -/
def Shortens (reader : Reader α) : Prop :=
  ∀ {tokens x rest}, reader tokens = .ok (x, rest) → rest.length ≤ tokens.length

/-- At least one token is taken. -/
def Advances (reader : Reader α) : Prop :=
  ∀ {tokens x rest}, reader tokens = .ok (x, rest) → rest.length < tokens.length

section Tokens

theorem refuse_ne_ok {expected : Expected} {x : α} :
    refuse ending expected tokens ≠ .ok x := by
  cases tokens <;> simp [refuse]

theorem symbol_ok {s : Symbol} {span : Span} :
    symbol ending s tokens = .ok (span, rest) ↔ tokens = ⟨.symbol s, span⟩ :: rest := by
  constructor
  · intro h
    unfold symbol at h
    split at h
    · split at h
      · next heq =>
          cases h
          rw [heq]
      · exact absurd h refuse_ne_ok
    · exact absurd h refuse_ne_ok
  · rintro rfl
    exact if_pos rfl

theorem symbol_refuse {s : Symbol} (h : ∀ span, tokens.head? ≠ some (s.at span)) :
    symbol ending s tokens = refuse ending (.symbol s) tokens := by
  unfold symbol
  split
  · split
    · next hs =>
        cases hs
        exact absurd rfl (h _)
    · rfl
  · rfl

theorem identifier_ok {name : Ident} :
    identifier ending tokens = .ok (name, rest) ↔
      tokens = ⟨.identifier name.val, name.span⟩ :: rest := by
  constructor
  · intro h
    unfold identifier at h
    split at h
    · cases h
      rfl
    · exact absurd h refuse_ne_ok
  · rintro rfl
    rfl

theorem identifier_refuse (h : ∀ name : Ident, tokens.head? ≠ some name.token) :
    identifier ending tokens = refuse ending .identifier tokens := by
  unfold identifier
  split
  · next name span rest => exact absurd rfl (h ⟨name, span⟩)
  · rfl

end Tokens

section Factor

theorem factor_number (value : Number) :
    factor ending levels (⟨.number value, span⟩ :: rest) = .ok (⟨.number value, 1⟩, rest) := by
  rw [factor]

theorem factor_negation : factor ending (levels + 1)
    (⟨.symbol (.operator .sub), span⟩ :: rest) = (do
      let (operand, rest) ← factor ending levels rest
      let height ← taller operand.height span
      return (⟨operand.expr.negate, height⟩, rest)) := rfl

theorem factor_call (name : String) (paren : Span) : factor ending (levels + 1)
    (⟨.identifier name, span⟩ :: ⟨.symbol .leftParen, paren⟩ :: rest) = (do
      let (args, rest) ← enclosed ending (sum (factor ending levels)) rest
      let height ← taller ((args.map (·.height)).foldl max 0) span
      return (⟨.call ⟨name, span⟩ (args.map (·.expr)), height⟩, rest)) := rfl

theorem factor_grouping : factor ending (levels + 1) (⟨.symbol .leftParen, span⟩ :: rest) = (do
      let (inner, rest) ← sum (factor ending levels) rest
      let (_, rest) ← symbol ending .rightParen rest
      return (inner, rest)) := rfl

theorem factor_name {name : String}
    (h : ∀ paren behind, rest ≠ ⟨.symbol .leftParen, paren⟩ :: behind) :
    factor ending levels (⟨.identifier name, span⟩ :: rest) =
      .ok (⟨.variable ⟨name, span⟩, 1⟩, rest) := by
  unfold factor
  split
  · next heq => cases heq
  · next heq => cases heq
  · next heq =>
      cases heq
      exact absurd rfl (h _ _)
  · next heq =>
      cases heq
      rfl
  · next heq => cases heq
  · next hname _ => exact absurd rfl (hname _ _ _)

theorem factor_refuse (h : ∀ t ∈ tokens.head?, opensFactor t.val = false) :
    factor ending levels tokens = refuse ending .expression tokens := by
  unfold factor
  split
  · cases h _ rfl
  · cases h _ rfl
  · cases h _ rfl
  · cases h _ rfl
  · cases h _ rfl
  · rfl

end Factor

section Chain

variable {operator? : Token → Option BinaryOp} {operand : Reader Measured} {lhs : Measured}

theorem chain_nil : chain operator? operand fuel lhs [] = .ok (lhs, []) := by
  cases fuel <;> rfl

theorem chain_none {t : Located Token} (h : operator? t.val = none) :
    chain operator? operand fuel lhs (t :: rest) = .ok (lhs, t :: rest) := by
  cases fuel with
  | zero => rfl
  | succ fuel => simp only [chain, h]

/-- A chain goes on no further where no operator follows. -/
theorem chain_stop (h : ∀ t ∈ tokens.head?, operator? t.val = none) :
    chain operator? operand fuel lhs tokens = .ok (lhs, tokens) := by
  cases tokens with
  | nil => exact chain_nil
  | cons t rest => exact chain_none (h t rfl)

theorem chain_fuel (hoperand : Shortens operand) {fuel' : Nat} (h : tokens.length ≤ fuel)
    (h' : tokens.length ≤ fuel') :
    chain operator? operand fuel lhs tokens = chain operator? operand fuel' lhs tokens := by
  induction fuel generalizing fuel' lhs tokens with
  | zero =>
      rw [List.length_eq_zero_iff.1 (Nat.le_zero.1 h), chain_nil, chain_nil]
  | succ fuel ih =>
      cases tokens with
      | nil => rw [chain_nil, chain_nil]
      | cons t rest =>
          cases hop : operator? t.val with
          | none => rw [chain_none hop, chain_none hop]
          | some op =>
              rw [List.length_cons] at h h'
              obtain ⟨fuel', rfl⟩ := Nat.exists_eq_add_of_le' (Nat.le_of_add_left_le h')
              simp only [chain, hop]
              refine bind_congr_of_ok fun read hread => bind_congr_of_ok fun height _ => ?_
              have hshorter := hoperand hread
              exact ih (by omega) (by omega)

/-- One operator and its right operand. -/
theorem chain_some (hoperand : Shortens operand) {t : Located Token} {op : BinaryOp}
    (hop : operator? t.val = some op) :
    chain operator? operand (t :: rest).length lhs (t :: rest) = (do
      let (rhs, rest) ← operand rest
      let height ← taller (max lhs.height rhs.height) t.span
      chain operator? operand rest.length ⟨.binary op lhs.expr rhs.expr, height⟩ rest) := by
  simp only [List.length_cons, chain, hop]
  refine bind_congr_of_ok fun read hread => bind_congr_of_ok fun height _ => ?_
  exact chain_fuel hoperand (hoperand hread) (Nat.le_refl _)

end Chain

section Items

variable {item : Reader α}

/-- What is read behind an item: a comma and more items, or nothing. -/
def itemsBehind (item : Reader α) (x : α) : Reader (List α)
  | ⟨.symbol .comma, _⟩ :: rest => do
    let (xs, rest) ← separated item rest.length rest
    return (x :: xs, rest)
  | rest => .ok ([x], rest)

theorem itemsBehind_comma {x : α} : itemsBehind item x (⟨.symbol .comma, span⟩ :: rest) = (do
    let (xs, rest) ← separated item rest.length rest
    return (x :: xs, rest)) := rfl

theorem itemsBehind_stop {x : α} (h : ∀ t ∈ rest.head?, t.val ≠ .symbol .comma) :
    itemsBehind item x rest = .ok ([x], rest) := by
  unfold itemsBehind
  split
  · exact absurd rfl (h _ rfl)
  · rfl

theorem separated_eq_of_le (hitem : Shortens item) (h : tokens.length ≤ fuel) :
    separated item fuel tokens = (do
      let (x, rest) ← item tokens
      itemsBehind item x rest) := by
  induction fuel using Nat.strongRecOn generalizing tokens with
  | ind fuel ih =>
      cases fuel with
      | zero =>
          refine bind_congr_of_ok fun ⟨x, rest⟩ hx => ?_
          have hrest := Nat.le_trans (hitem hx) h
          rw [List.length_eq_zero_iff.1 (Nat.le_zero.1 hrest)]
          rfl
      | succ fuel =>
          refine bind_congr_of_ok fun ⟨x, rest⟩ hx => ?_
          have hrest := Nat.le_trans (hitem hx) h
          dsimp only
          split
          · next behind =>
              rw [List.length_cons] at hrest
              rw [itemsBehind, ih fuel (Nat.lt_succ_self fuel) (Nat.le_of_succ_le_succ hrest),
                ih behind.length hrest (Nat.le_refl _)]
          · next hcomma =>
              rw [itemsBehind_stop]
              · rfl
              · rintro ⟨t, place⟩ ht rfl
                obtain ⟨behind, rfl⟩ := List.head?_eq_some_iff.1 ht
                exact hcomma _ _ rfl

theorem separated_eq (hitem : Shortens item) : separated item tokens.length tokens = (do
    let (x, rest) ← item tokens
    itemsBehind item x rest) := separated_eq_of_le hitem (Nat.le_refl _)

theorem enclosed_items (h : ∀ span, tokens.head? ≠ some (Symbol.rightParen.at span)) :
    enclosed ending item tokens = (do
      let (xs, rest) ← separated item tokens.length tokens
      let (_, rest) ← symbol ending .rightParen rest
      return (xs, rest)) := by
  unfold enclosed
  split
  · exact absurd rfl (h _)
  · rfl

end Items

section Statements

variable {reader : Reader Stmt}

theorem statement_define : statement ending (levels + 1) (⟨.keyword .define, span⟩ :: rest) =
    definition ending (statement ending levels) rest := rfl

theorem statement_return : statement ending levels (⟨.keyword .giveBack, span⟩ :: rest) = (do
    let (value, rest) ← expression ending levels rest
    let (last, rest) ← symbol ending .semicolon rest
    return (.giveBack value ⟨span.start, last.stop⟩, rest)) := by
  rw [statement]

theorem statement_assign {name : String} {equals : Span} : statement ending levels
    (⟨.identifier name, span⟩ :: ⟨.symbol .equals, equals⟩ :: rest) = (do
      let (value, rest) ← expression ending levels rest
      let (_, rest) ← symbol ending .semicolon rest
      return (.assign ⟨name, span⟩ value, rest)) := by
  rw [statement]

/-- A statement that begins with none of the keywords and is no assignment. -/
theorem statement_eval
    (hdefine : ∀ span behind, tokens ≠ ⟨.keyword .define, span⟩ :: behind)
    (hreturn : ∀ span behind, tokens ≠ ⟨.keyword .giveBack, span⟩ :: behind)
    (hassign : ∀ name span span' behind,
      tokens ≠ ⟨.identifier name, span⟩ :: ⟨.symbol .equals, span'⟩ :: behind) :
    statement ending levels tokens = (do
      let (value, rest) ← expression ending levels tokens
      let (_, rest) ← symbol ending .semicolon rest
      return (.eval value, rest)) := by
  unfold statement
  split
  · exact absurd rfl (hdefine _ _)
  · exact absurd rfl (hreturn _ _)
  · exact absurd rfl (hassign _ _ _ _)
  · rfl

theorem block_close : block ending reader fuel (⟨.symbol .rightBrace, span⟩ :: rest) =
    .ok ([], rest) := by
  rw [block]

theorem block_nil : block ending reader fuel [] = refuse ending (.symbol .rightBrace) [] := by
  rw [block]

theorem block_succ {t : Located Token} (ht : t.val ≠ .symbol .rightBrace) :
    block ending reader (fuel + 1) (t :: rest) = (do
      let (s, rest) ← reader (t :: rest)
      let (ss, rest) ← block ending reader fuel rest
      return (s :: ss, rest)) := by
  rw [block]
  · rintro span behind ⟨⟩
    exact ht rfl
  · exact List.cons_ne_nil t rest

theorem block_fuel (hreader : Advances reader) (h : tokens.length ≤ fuel) :
    block ending reader fuel tokens = block ending reader tokens.length tokens := by
  induction fuel using Nat.strongRecOn generalizing tokens with
  | ind fuel ih =>
      cases tokens with
      | nil => rw [block_nil, block_nil]
      | cons t rest =>
          by_cases ht : t.val = .symbol .rightBrace
          · obtain ⟨t, span⟩ := t
            cases ht
            rw [block_close, block_close]
          · obtain ⟨fuel, rfl⟩ := Nat.exists_eq_add_of_le' (Nat.le_of_add_left_le h)
            rw [List.length_cons] at h ⊢
            rw [block_succ ht, block_succ ht]
            refine bind_congr_of_ok fun ⟨s, behind⟩ hs => ?_
            have hbehind := hreader hs
            rw [List.length_cons] at hbehind
            dsimp only
            rw [ih fuel (Nat.lt_succ_self fuel) (by omega), ih rest.length (by omega) (by omega)]

/-- A statement and those behind it. -/
theorem block_next (hreader : Advances reader) {t : Located Token} (hhead : tokens.head? = some t)
    (ht : t.val ≠ .symbol .rightBrace) :
    block ending reader tokens.length tokens = (do
      let (s, rest) ← reader tokens
      let (ss, rest) ← block ending reader rest.length rest
      return (s :: ss, rest)) := by
  obtain ⟨rest, rfl⟩ := List.head?_eq_some_iff.1 hhead
  rw [List.length_cons, block_succ ht]
  refine bind_congr_of_ok fun ⟨s, behind⟩ hs => ?_
  have hbehind := hreader hs
  rw [List.length_cons] at hbehind
  dsimp only
  rw [block_fuel hreader (Nat.le_of_lt_succ hbehind)]

theorem statements_nil : statements ending reader fuel [] = .ok [] := by
  cases fuel <;> rfl

theorem statements_fuel (hreader : Advances reader) (h : tokens.length ≤ fuel) :
    statements ending reader fuel tokens = statements ending reader tokens.length tokens := by
  induction fuel using Nat.strongRecOn generalizing tokens with
  | ind fuel ih =>
      cases tokens with
      | nil => rw [statements_nil, statements_nil]
      | cons t rest =>
          obtain ⟨fuel, rfl⟩ := Nat.exists_eq_add_of_le' (Nat.le_of_add_left_le h)
          rw [List.length_cons] at h ⊢
          refine bind_congr_of_ok fun ⟨s, behind⟩ hs => ?_
          have hbehind := hreader hs
          rw [List.length_cons] at hbehind
          dsimp only
          rw [ih fuel (Nat.lt_succ_self fuel) (by omega), ih rest.length (by omega) (by omega)]

/-- A statement of a program and those behind it. -/
theorem statements_next (hreader : Advances reader) {t : Located Token} :
    statements ending reader (t :: rest).length (t :: rest) = (do
      let (s, rest) ← reader (t :: rest)
      return s :: (← statements ending reader rest.length rest)) := by
  refine bind_congr_of_ok fun ⟨s, behind⟩ hs => ?_
  have hbehind := hreader hs
  rw [List.length_cons] at hbehind
  dsimp only
  rw [statements_fuel hreader (Nat.le_of_lt_succ hbehind)]

end Statements

end StackCalc.Source.Parser
