import StackCalc.Proofs.JoinedTokens
import StackCalc.Proofs.Parsing

/-!
# Parses of joined programs

A statement is read the same whatever follows, and ends in a symbol, behind which no character has
to be seen to tell where it ends. So a program that goes on from the end of another begins with the
statements of that one.
-/

open StackCalc.Source.Parser

namespace StackCalc.Source

namespace Derivation

theorem exists_symbol_last (d : Derivation .statement) :
    ∃ front s span, d.tokens = front ++ [Symbol.at s span] := by
  cases d with
  | defining d =>
      cases d with
      | definition keyword name leftParen params rightParen leftBrace body rightBrace =>
          exact ⟨Keyword.define.at keyword :: name.token :: Symbol.leftParen.at leftParen ::
            (params.tokens ++ Symbol.rightParen.at rightParen :: Symbol.leftBrace.at leftBrace ::
              body.tokens), .rightBrace, rightBrace, by simp [tokens]⟩
  | returning keyword value semicolon => exact ⟨_ :: value.tokens, _, semicolon, rfl⟩
  | assigning target equals value semicolon =>
      exact ⟨_ :: _ :: value.tokens, _, semicolon, rfl⟩
  | evaluating value semicolon => exact ⟨value.tokens, _, semicolon, rfl⟩

theorem endsInSymbol : (d : Derivation .program) → EndsInSymbol d.tokens
  | done => nofun
  | next first later => by
      intro last hlast
      rw [tokens, List.getLast?_append] at hlast
      cases hfound : later.tokens.getLast? with
      | none =>
          obtain ⟨front, s, span, hfirst⟩ := first.exists_symbol_last
          rw [hfound, Option.none_or, hfirst, List.getLast?_concat] at hlast
          cases hlast
          exact ⟨s, rfl⟩
      | some found =>
          rw [hfound, Option.some_or] at hlast
          exact later.endsInSymbol last (hfound.trans hlast)

theorem statements_append (ending : Span) {levels : Nat} (more : Tokens) :
    (d : Derivation .program) → d.Fits levels →
    statements ending (statement ending levels) (d.tokens ++ more).length (d.tokens ++ more) = (do
      let later ← statements ending (statement ending levels) more.length more
      return d.tree ++ later)
  | done, _ => (bind_pure _).symm
  | next first later, hfits => by
      obtain ⟨hfirst, hlater⟩ := fits_next_iff.1 hfits
      obtain ⟨t, behind, htokens, -⟩ := first.exists_head
      have hread : statement ending levels (first.tokens ++ (later.tokens ++ more)) =
          .ok (first.tree, later.tokens ++ more) :=
        Gives.eq_ok (first.readsWhole fun h : True => hfirst) trivial
      rw [tokens, List.append_assoc]
      rw [htokens, List.cons_append] at hread ⊢
      rw [statements_next (explains_statement ending levels).advances, hread]
      change (do
        let ss ← statements ending (statement ending levels) (later.tokens ++ more).length
          (later.tokens ++ more)
        return first.tree :: ss) = _
      rw [later.statements_append ending more hlater, bind_assoc]
      rfl

end Derivation

/-- A program that ends where its text does begins any program that its text begins. -/
theorem parse_append {text more : List Char} {toks toks' : List (Located Token)}
    {program program' : Program} (htokens : tokens text = .ok toks)
    (hparse : parse toks = .ok program) (htokens' : tokens (text ++ more) = .ok toks')
    (hparse' : parse toks' = .ok program') : program <+: program' := by
  obtain ⟨d, hfits, rfl, rfl⟩ := reads_of_parse hparse
  rw [tokens, tokensFrom_append htokens d.endsInSymbol more] at htokens'
  cases hbehind : tokensFrom (0 + Text.byteLength text) more with
  | error e =>
      rw [hbehind] at htokens'
      cases htokens'
  | ok behind =>
      rw [hbehind] at htokens'
      cases htokens'
      rw [parse, d.statements_append _ behind hfits] at hparse'
      obtain ⟨later, -, hparse'⟩ := bind_eq_ok_iff.1 hparse'
      cases hparse'
      exact List.prefix_append _ _

end StackCalc.Source
