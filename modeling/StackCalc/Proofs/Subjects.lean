import StackCalc.Proofs.Lexing
import StackCalc.Proofs.Mentions
import StackCalc.Proofs.Parsing

/-!
# Subjects in the text of a program

The places of a program that errors are about were read from tokens, and these lie in the text. So
the span of a name shows the name, and that of a return statement shows the statement from its word
to its semicolon. What the parser refuses is a token or the end of the text.
-/

namespace StackCalc

open Source Source.Parser

/-- The place was read from these tokens: a name from its own, a return statement from those up to
the first semicolon behind its word. -/
def Mention.ReadFrom (toks : Tokens) : Mention → Prop
  | .read name | .call name | .define name | .param name | .assign name => name.token ∈ toks
  | .giveBack span => ∃ keyword value semicolon,
    Keyword.giveBack.at keyword :: (value ++ [Symbol.semicolon.at semicolon]) <:+: toks ∧
      (∀ t ∈ value, t.val ≠ .symbol .semicolon) ∧ span = ⟨keyword.start, semicolon.stop⟩

theorem Mention.ReadFrom.of_part {m : Mention} {toks toks' : Tokens} (h : m.ReadFrom toks)
    (htoks : toks <:+: toks') : m.ReadFrom toks' := by
  cases m with
  | read name | call name | define name | param name | assign name => exact htoks.subset h
  | giveBack span =>
      obtain ⟨keyword, value, semicolon, hinfix, hvalue⟩ := h
      exact ⟨keyword, value, semicolon, hinfix.trans htoks, hvalue⟩

namespace Source

namespace Nonterminal

/-- The places in what a derivation stands for. -/
def mentions : (N : Nonterminal) → N.Tree → List Mention
  | program, ss => Stmt.mentionsOfAll ss
  | statement, s | definition, s => s.mentions
  | parameters, params | names, params => params.map .param
  | expression _, e | call, e => e.mentions
  | arguments, es | sums, es => Expr.mentionsOfAll es

/-- Expressions and their parts, in which no statement ends. -/
def isValue : Nonterminal → Bool
  | expression _ | call | arguments | sums => true
  | program | statement | definition | parameters | names => false

end Nonterminal

namespace Derivation

variable {N : Nonterminal}

theorem no_semicolon (d : Derivation N) (hvalue : N.isValue = true) :
    ∀ t ∈ d.tokens, t.val ≠ .symbol .semicolon := by
  have hsymbol {s : Symbol} {span : Span} (h : s ≠ .semicolon) :
      (s.at span).val ≠ .symbol .semicolon := fun heq => h (Token.symbol.inj heq)
  have hname (name : Ident) : name.token.val ≠ .symbol .semicolon := fun h => by cases h
  induction d with
  | done | next | defining | returning | assigning | evaluating | definition | noNames
    | someNames | lastName | moreNames => cases hvalue
  | noSums => exact List.forall_mem_nil _
  | number value span => exact List.forall_mem_singleton.2 fun h => by cases h
  | named name => exact List.forall_mem_singleton.2 (hname name)
  | single d ih | calling d ih | someSums d ih | lastSum d ih => exact ih rfl
  | operation lhs op h place rhs ih ih' =>
      have hop : Symbol.operator op ≠ .semicolon := fun h => by cases h
      exact List.forall_mem_append.2 ⟨ih rfl, List.forall_mem_cons.2 ⟨hsymbol hop, ih' rfl⟩⟩
  | moreSums x comma later ih ih' =>
      have hcomma : (Symbol.comma.at comma).val ≠ .symbol .semicolon := hsymbol (by decide)
      exact List.forall_mem_append.2 ⟨ih rfl, List.forall_mem_cons.2 ⟨hcomma, ih' rfl⟩⟩
  | negation minus d ih => exact List.forall_mem_cons.2 ⟨hsymbol (by decide), ih rfl⟩
  | grouping leftParen d rightParen ih =>
      refine List.forall_mem_cons.2 ⟨hsymbol (by decide), List.forall_mem_append.2 ⟨ih rfl, ?_⟩⟩
      exact List.forall_mem_singleton.2 (hsymbol (by decide))
  | call callee leftParen d rightParen ih =>
      refine List.forall_mem_cons.2 ⟨hname callee, List.forall_mem_cons.2 ⟨hsymbol (by decide), ?_⟩⟩
      refine List.forall_mem_append.2 ⟨ih rfl, ?_⟩
      exact List.forall_mem_singleton.2 (hsymbol (by decide))

/-- The places of a part are read from the tokens of the whole. -/
theorem readFrom_part {toks toks' : Tokens} {places : List Mention} (front back : Tokens)
    (h : ∀ m ∈ places, m.ReadFrom toks) (htoks : toks' = front ++ (toks ++ back)) :
    ∀ m ∈ places, m.ReadFrom toks' := by
  intro m hm
  apply (h m hm).of_part
  rw [htoks, ← List.append_assoc]
  exact List.infix_append front toks back

theorem readFrom (d : Derivation N) : ∀ m ∈ N.mentions d.tree, m.ReadFrom d.tokens := by
  induction d with
  | done | noNames | noSums | number value span => exact List.forall_mem_nil _
  | defining d ih | someNames d ih | single d ih | calling d ih | someSums d ih => exact ih
  | lastName name | named name =>
      exact List.forall_mem_singleton.2 (List.mem_singleton_self name.token)
  | next first later ih ih' =>
      refine List.forall_mem_append.2 ⟨readFrom_part [] later.tokens ih rfl, ?_⟩
      exact readFrom_part first.tokens [] ih' (by simp [tokens])
  | moreNames name comma later ih =>
      refine List.forall_mem_cons.2 ⟨List.mem_cons_self, ?_⟩
      exact readFrom_part [name.token, Symbol.comma.at comma] [] ih (by simp [tokens])
  | returning keyword value semicolon ih =>
      refine List.forall_mem_cons.2 ⟨?_, ?_⟩
      · exact ⟨keyword, value.tokens, semicolon, List.infix_rfl, value.no_semicolon rfl, rfl⟩
      · exact readFrom_part [_] [_] ih rfl
  | assigning target equals value semicolon ih =>
      exact List.forall_mem_cons.2 ⟨List.mem_cons_self, readFrom_part [_, _] [_] ih rfl⟩
  | evaluating value semicolon ih => exact readFrom_part [] [_] ih rfl
  | definition keyword name leftParen params rightParen leftBrace body rightBrace ih ih' =>
      refine List.forall_mem_cons.2 ⟨?_, List.forall_mem_append.2 ⟨?_, ?_⟩⟩
      · exact List.mem_cons_of_mem _ List.mem_cons_self
      · exact readFrom_part [_, _, _] _ ih rfl
      · refine readFrom_part (Keyword.define.at keyword :: name.token ::
          Symbol.leftParen.at leftParen :: (params.tokens ++ [Symbol.rightParen.at rightParen,
            Symbol.leftBrace.at leftBrace])) [Symbol.rightBrace.at rightBrace] ih' ?_
        simp [tokens]
  | operation lhs op h place rhs ih ih' =>
      refine List.forall_mem_append.2 ⟨readFrom_part [] _ ih rfl, ?_⟩
      exact readFrom_part (lhs.tokens ++ [(Symbol.operator op).at place]) [] ih'
        (by simp [tokens])
  | moreSums x comma later ih ih' =>
      refine List.forall_mem_append.2 ⟨readFrom_part [] _ ih rfl, ?_⟩
      exact readFrom_part (x.tokens ++ [Symbol.comma.at comma]) [] ih' (by simp [tokens])
  | negation minus d ih =>
      exact readFrom_part [(Symbol.operator .sub).at minus] [] ih (by simp [tokens])
  | grouping leftParen d rightParen ih => exact readFrom_part [_] [_] ih rfl
  | call callee leftParen d rightParen ih =>
      refine List.forall_mem_cons.2 ⟨List.mem_cons_self, ?_⟩
      exact readFrom_part [_, _] [_] ih rfl
  | lastSum d ih => exact List.forall_mem_append.2 ⟨ih, List.forall_mem_nil _⟩

end Derivation

section Texts

variable {start : Nat} {text before slice after : List Char} {c : Char} {toks : Tokens}

theorem mem_of_append_eq {front back slice after : List Char}
    (h : front ++ c :: back = slice ++ after)
    (hlt : Text.byteLength front < Text.byteLength slice) : c ∈ slice := by
  obtain ⟨middle, hslice, hback⟩ | ⟨middle, hfront, -⟩ := List.append_eq_append_iff.1 h
  · cases middle with
    | nil =>
        rw [hslice, List.append_nil] at hlt
        exact absurd hlt (Nat.lt_irrefl _)
    | cons d middle =>
        obtain ⟨rfl, -⟩ := List.cons.inj hback
        simp [hslice]
  · rw [hfront, Text.byteLength_append] at hlt
    omega

/-- A character that is not blank is in a token. -/
theorem FallsInto.exists_covering (h : FallsInto start text toks)
    (htext : text = before ++ c :: after) (hc : c ∉ [' ', '\t', '\r', '\n', '\x0c']) :
    ∃ t ∈ toks, t.span.start ≤ start + Text.byteLength before ∧
      start + Text.byteLength before < t.span.stop ∧ ∃ slice, Spells slice t.val ∧ c ∈ slice := by
  by_contra hnone
  refine hc (h.blank before c after htext fun t ht => ?_)
  rintro ⟨hstart, hstop⟩
  apply hnone
  refine ⟨t, ht, hstart, hstop, ?_⟩
  obtain ⟨front, slice, behind, hlies⟩ := h.lies t ht
  refine ⟨slice, hlies.spells, ?_⟩
  rw [hlies.start_eq] at hstart
  rw [hlies.stop_eq] at hstop
  have hpart : front <+: before := by
    apply Text.isPrefix_of_byteLength_le ⟨_, hlies.text_eq.symm⟩ ⟨_, htext.symm⟩
    omega
  obtain ⟨middle, rfl⟩ := hpart
  rw [Text.byteLength_append] at hstop
  have hboth := htext.symm.trans hlies.text_eq
  rw [List.append_assoc] at hboth
  exact mem_of_append_eq (List.append_cancel_left hboth) (by omega)

/-- Only a semicolon is written with one. -/
theorem Spells.eq_semicolon {t : Token} (h : Spells slice t) (hmem : ';' ∈ slice) :
    t = .symbol .semicolon := by
  cases h with
  | keyword k => cases k <;> exact absurd hmem (by decide)
  | identifier h => cases h.1.all _ hmem
  | number h hfinite =>
      cases h with
      | whole _ h => cases h _ hmem
      | pointed _ h h' =>
          rcases List.mem_append.1 hmem with hmem | hmem
          · cases h _ hmem
          · rcases List.mem_cons.1 hmem with hpoint | hmem
            · cases hpoint
            · cases h' _ hmem
  | symbol s =>
      have hchar : ';' = s.char := List.mem_singleton.1 hmem
      have hsymbol := Symbol.ofChar?_char s
      rw [← hchar] at hsymbol
      exact congrArg Token.symbol (Option.some.inj hsymbol).symm

theorem Spells.eq_name {name : String} (h : Spells slice (.identifier name)) :
    slice = name.toList := by
  cases h with
  | identifier h => rfl

theorem Spells.eq_keyword {k : Keyword} (h : Spells slice (.keyword k)) :
    slice = k.text.toList := by
  cases h with
  | keyword k => rfl

theorem Spells.eq_char {s : Symbol} (h : Spells slice (.symbol s)) : slice = [s.char] := by
  cases h with
  | symbol s => rfl

/-- A return statement from its word to its semicolon. -/
def IsReturn (slice : List Char) : Prop :=
  ∃ value, slice = Keyword.giveBack.text.toList ++ (value ++ [';']) ∧ ';' ∉ value

/-- The text from one token to a later one. -/
theorem FallsInto.exists_between (h : FallsInto start text toks) {t t' : Located Token}
    (ht : t ∈ toks) (ht' : t' ∈ toks) (hle : t.span.stop ≤ t'.span.start) :
    ∃ before slice middle slice' after, Spells slice t.val ∧ Spells slice' t'.val ∧
      Text.Cuts start text ⟨t.span.start, t'.span.stop⟩ before (slice ++ (middle ++ slice')) after ∧
      t.span.stop = start + Text.byteLength (before ++ slice) ∧
      t'.span.start = start + Text.byteLength (before ++ slice ++ middle) := by
  obtain ⟨before, slice, behind, hlies⟩ := h.lies t ht
  obtain ⟨before', slice', after, hlies'⟩ := h.lies t' ht'
  have hstart := hlies.start_eq
  have hstop := hlies.stop_eq
  have hstart' := hlies'.start_eq
  have hstop' := hlies'.stop_eq
  have hfirst : before ++ slice <+: text := by
    rw [hlies.text_eq, ← List.append_assoc]
    exact List.prefix_append _ _
  have hpart : before ++ slice <+: before' := by
    apply Text.isPrefix_of_byteLength_le hfirst ⟨_, hlies'.text_eq.symm⟩
    rw [Text.byteLength_append]
    omega
  obtain ⟨middle, rfl⟩ := hpart
  have htext := hlies'.text_eq
  simp only [Text.byteLength_append] at hstop'
  refine ⟨before, slice, middle, slice', after, hlies.spells, hlies'.spells, ⟨?_, hstart, ?_⟩, ?_,
    hstart'⟩
  · rw [htext]
    simp
  · simp only [Text.byteLength_append]
    omega
  · rw [hstop, Text.byteLength_append, Nat.add_assoc]

theorem FallsInto.mem_between {front inner back : Tokens} {t t' x : Located Token}
    (h : FallsInto start text toks) (htoks : toks = front ++ t :: (inner ++ t' :: back))
    (hx : x ∈ toks) (hstop : t.span.stop < x.span.stop) (hstart : x.span.start < t'.span.start) :
    x ∈ inner := by
  subst htoks
  have hordered := h.ordered
  rw [List.pairwise_append, List.pairwise_cons, List.pairwise_append,
    List.pairwise_cons] at hordered
  obtain ⟨-, ⟨-, -, ⟨hback, -⟩, -⟩, hfront⟩ := hordered
  rcases List.mem_append.1 hx with hx | hx
  · have hearlier := hfront x hx t List.mem_cons_self
    have hnonempty := h.nonempty t (by simp)
    omega
  rcases List.mem_cons.1 hx with rfl | hx
  · omega
  rcases List.mem_append.1 hx with hx | hx
  · exact hx
  rcases List.mem_cons.1 hx with rfl | hx
  · omega
  · have hlater := hback x hx
    have hnonempty := h.nonempty t' (by simp)
    omega

/-- The text from a word `return` to a semicolon shows the statement, if no other semicolon is
among the tokens between them. -/
theorem FallsInto.isReturn {keyword semicolon : Span} {front value back : Tokens}
    (h : FallsInto 0 text toks)
    (htoks : toks = front ++ (Keyword.giveBack.at keyword :: (value ++
      Symbol.semicolon.at semicolon :: back)))
    (hvalue : ∀ t ∈ value, t.val ≠ .symbol .semicolon) :
    ∃ slice, Text.Shows text ⟨keyword.start, semicolon.stop⟩ slice ∧ IsReturn slice := by
  have hordered := (List.pairwise_append.1 (htoks ▸ h.ordered)).2.1
  have hle : keyword.stop ≤ semicolon.start :=
    (List.pairwise_cons.1 hordered).1 (Symbol.semicolon.at semicolon) (by simp)
  have hkeyword : Keyword.giveBack.at keyword ∈ toks := by simp [htoks]
  have hlast : Symbol.semicolon.at semicolon ∈ toks := by simp [htoks]
  obtain ⟨before, word, middle, mark, after, hword, hmark, hcuts, hstop, hstart⟩ :=
    h.exists_between hkeyword hlast hle
  obtain rfl := hword.eq_keyword
  obtain rfl := hmark.eq_char
  refine ⟨_, hcuts.shows, middle, rfl, fun hmem => ?_⟩
  -- a semicolon in the middle would be a token that stands between the two
  obtain ⟨inner, outer, rfl⟩ := List.append_of_mem hmem
  have htext : text = (before ++ Keyword.giveBack.text.toList ++ inner) ++
      ';' :: (outer ++ ([Symbol.semicolon.char] ++ after)) := by
    rw [hcuts.text_eq]
    simp
  obtain ⟨t, ht, htstart, htstop, slice, hspells, hin⟩ := h.exists_covering htext (by decide)
  have hpos := Char.utf8Size_pos ';'
  simp only [Text.byteLength_append, Text.byteLength_cons] at hstop hstart htstart htstop
  refine hvalue t (h.mem_between htoks ht ?_ ?_) (hspells.eq_semicolon hin)
  · dsimp only at hstop ⊢
    omega
  · dsimp only at hstart ⊢
    omega

theorem Spells.ne_nil {t : Token} (h : Spells slice t) : slice ≠ [] := by
  rintro rfl
  generalize hslice : ([] : List Char) = slice at h
  cases h with
  | keyword k => cases k <;> cases hslice
  | identifier h =>
      obtain ⟨c, tail, hchars, -⟩ := h.1
      rw [hchars] at hslice
      cases hslice
  | number h hfinite =>
      cases h with
      | whole hne h => exact hne hslice.symm
      | pointed hne h h' => cases List.append_eq_nil_iff.1 hslice.symm |>.2
  | symbol s => cases hslice

theorem FallsInto.shows_token (h : FallsInto 0 text toks) {t : Located Token} (ht : t ∈ toks) :
    ∃ slice, Text.Shows text t.span slice ∧ Spells slice t.val := by
  obtain ⟨before, slice, after, hlies⟩ := h.lies t ht
  exact ⟨slice, hlies.toCuts.shows, hlies.spells⟩

theorem FallsInto.shows_end (h : FallsInto 0 text toks) : Text.Shows text (endOf toks) [] := by
  rw [endOf]
  cases hlast : toks.getLast? with
  | none =>
      have hcuts : Text.Cuts 0 text ⟨0, 0⟩ [] [] text := ⟨rfl, rfl, rfl⟩
      exact hcuts.shows
  | some t =>
      obtain ⟨before, slice, after, hlies⟩ := h.lies t (List.mem_of_getLast? hlast)
      have hstop := hlies.stop_eq
      have hcuts : Text.Cuts 0 text ⟨t.span.stop, t.span.stop⟩ (before ++ slice) [] after := by
        constructor
        · rw [hlies.text_eq, List.append_assoc, List.nil_append]
        · rw [hstop, Text.byteLength_append, Nat.add_assoc]
        · rw [hstop, Text.byteLength_append, Nat.add_assoc, Text.byteLength_nil, Nat.add_zero]
      exact hcuts.shows

end Texts

end Source

/-- What the span of a place shows: the name that stands there, or the whole return statement. -/
def Mention.IsShown (slice : List Char) : Mention → Prop
  | .read name | .call name | .define name | .param name | .assign name => slice = name.val.toList
  | .giveBack _ => IsReturn slice

theorem Mention.ReadFrom.shows {text : List Char} {toks : Tokens} {m : Mention}
    (h : m.ReadFrom toks) (htext : FallsInto 0 text toks) :
    ∃ slice, Text.Shows text m.span slice ∧ slice ≠ [] ∧ m.IsShown slice := by
  cases m with
  | read name | call name | define name | param name | assign name =>
      obtain ⟨slice, hshows, hspells⟩ := htext.shows_token h
      exact ⟨slice, hshows, hspells.ne_nil, hspells.eq_name⟩
  | giveBack span =>
      obtain ⟨keyword, value, semicolon, ⟨front, back, htoks⟩, hvalue, rfl⟩ := h
      rw [List.append_assoc, List.cons_append, List.append_assoc, List.singleton_append] at htoks
      obtain ⟨slice, hshows, hreturn⟩ := htext.isReturn htoks.symm hvalue
      refine ⟨slice, hshows, ?_, hreturn⟩
      obtain ⟨middle, rfl, -⟩ := hreturn
      exact List.append_ne_nil_of_left_ne_nil (by decide) _

theorem Source.shows_mentions {text : List Char} {toks : Tokens} {program : Program}
    (htoks : Source.tokens text = .ok toks) (h : parse toks = .ok program) :
    ∀ m ∈ program.mentions, ∃ slice, Text.Shows text m.span slice ∧ slice ≠ [] ∧
      m.IsShown slice := by
  have hfalls := fallsInto_of_tokensFrom htoks
  obtain ⟨d, -, rfl, rfl⟩ := reads_of_parse h
  exact fun m hm => (d.readFrom m hm).shows hfalls

end StackCalc
