import StackCalc.Proofs.Positions
import StackCalc.Proofs.PrintedWords

/-!
# A text and its tokens

The tokens of a text lie in it one behind another, with nothing but blanks between them, and each
is the longest that can be read where it begins. Where a text does not fall into tokens, all of it
up to there does, and there is a character that begins no token or a literal that is too large.
What a token is, is said without the lexer.
-/

namespace StackCalc

namespace Source

open Lexer

/-- Digits, then maybe a point, behind which there may be digits too. -/
inductive IsLiteral : List Char → Prop
  | whole {digits : List Char} (hne : digits ≠ []) (h : ∀ c ∈ digits, c.isDigit = true) :
      IsLiteral digits
  | pointed {digits fraction : List Char} (hne : digits ≠ [])
      (h : ∀ c ∈ digits, c.isDigit = true) (h' : ∀ c ∈ fraction, c.isDigit = true) :
      IsLiteral (digits ++ '.' :: fraction)

/-- The texts of a token. A keyword is no identifier, and a number is finite. -/
inductive Spells : List Char → Token → Prop
  | keyword (k : Keyword) : Spells k.text.toList (.keyword k)
  | identifier {name : String} (h : IsPlainName name) : Spells name.toList (.identifier name)
  | number {text : List Char} (h : IsLiteral text) (hfinite : (Number.read text).isFinite = true) :
      Spells text (.number (Number.read text))
  | symbol (s : Symbol) : Spells [s.char] (.symbol s)

/-- The token lies in the text as its own text, which by itself is read as this token, and no
longer token begins in the same place. -/
structure LiesAt (start : Nat) (text : List Char) (t : Located Token)
    (before slice after : List Char) : Prop extends
    Text.Cuts start text t.span before slice after where
  spells : Spells slice t.val
  alone : tokens slice = .ok [⟨t.val, 0, Text.byteLength slice⟩]
  longest : ∀ more rest t', after = more ++ rest → more ≠ [] → ¬ Spells (slice ++ more) t'

/-- A text that begins at byte `start` is these tokens and the blanks around them. -/
structure FallsInto (start : Nat) (text : List Char) (toks : List (Located Token)) : Prop where
  nonempty : ∀ t ∈ toks, t.span.start < t.span.stop
  ordered : toks.Pairwise fun t t' => t.span.stop ≤ t'.span.start
  lies : ∀ t ∈ toks, ∃ before slice after, LiesAt start text t before slice after
  blank : ∀ before c after, text = before ++ c :: after →
    (∀ t ∈ toks, ¬ (t.span.start ≤ start + Text.byteLength before ∧
      start + Text.byteLength before < t.span.stop)) →
    c ∈ [' ', '\t', '\r', '\n', '\x0c']

namespace Lexer

variable {c : Char} {rest tail more x y : List Char} {r : Except LexError Token}

theorem takeWhile_cut {p : Char → Bool} (h : (tail ++ (x ++ y)).takeWhile p = tail) :
    (tail ++ x).takeWhile p = tail := by
  have htail : ∀ c ∈ tail, p c = true := fun c hc => by
    rw [← h] at hc
    exact List.mem_takeWhile_imp hc
  rw [List.takeWhile_append_of_pos htail] at h ⊢
  have hnone : (x ++ y).takeWhile p = [] := List.append_right_eq_self.1 h
  cases x with
  | nil => simp
  | cons d x =>
      have hd : p d = false := by
        by_contra hp
        simp [hp] at hnone
      simp [hd]

theorem shape_of_isLiteral (h : IsLiteral (c :: more)) : c.isDigit = true ∧
    ((∀ x ∈ more, x.isDigit = true) ∨ ∃ digits fraction, more = digits ++ '.' :: fraction ∧
      (∀ x ∈ digits, x.isDigit = true) ∧ ∀ x ∈ fraction, x.isDigit = true) := by
  generalize htext : c :: more = text at h
  cases h with
  | whole hne h =>
      subst htext
      obtain ⟨hc, hmore⟩ := List.forall_mem_cons.1 h
      exact ⟨hc, .inl hmore⟩
  | @pointed digits fraction hne h h' =>
      cases digits with
      | nil => exact absurd rfl hne
      | cons d digits =>
          obtain ⟨rfl, rfl⟩ := List.cons.inj (htext.trans (List.cons_append ..))
          obtain ⟨hc, hdigits⟩ := List.forall_mem_cons.1 h
          exact ⟨hc, .inr ⟨digits, fraction, rfl, hdigits, h'⟩⟩

theorem isLiteral_numberTail (hdigit : c.isDigit = true) (rest : List Char) :
    IsLiteral (c :: numberTail rest) := by
  have hwhole : ∀ x ∈ c :: rest.takeWhile Char.isDigit, x.isDigit = true :=
    List.forall_mem_cons.2 ⟨hdigit, fun x hx => List.mem_takeWhile_imp hx⟩
  by_cases h : ∃ behind, rest.drop (rest.takeWhile Char.isDigit).length = '.' :: behind
  · obtain ⟨behind, hpoint⟩ := h
    rw [numberTail_of_point hpoint]
    exact .pointed (List.cons_ne_nil _ _) hwhole fun x hx => List.mem_takeWhile_imp hx
  · rw [numberTail_of_not_point (not_exists.1 h)]
    exact .whole (List.cons_ne_nil _ _) hwhole

theorem length_le_numberTail (h : IsLiteral (c :: more)) (hmore : more <+: rest) :
    more.length ≤ (numberTail rest).length := by
  obtain ⟨after, rfl⟩ := hmore
  obtain ⟨-, hdigits | ⟨digits, fraction, rfl, hdigits, hfraction⟩⟩ := shape_of_isLiteral h
  · refine Nat.le_trans ?_ length_takeWhile_le_numberTail
    rw [List.takeWhile_append_of_pos hdigits]
    simp
  · have htake : (digits ++ '.' :: (fraction ++ after)).takeWhile Char.isDigit = digits :=
      Decimal.takeWhile_append_of_all hdigits rfl
    have hpoint : (digits ++ '.' :: (fraction ++ after)).drop
        ((digits ++ '.' :: (fraction ++ after)).takeWhile Char.isDigit).length =
          '.' :: (fraction ++ after) := by
      rw [htake, List.drop_left]
    rw [List.append_assoc, List.cons_append, numberTail_of_point hpoint, htake,
      List.takeWhile_append_of_pos hfraction]
    simp

theorem numberTail_cut (h : numberTail (tail ++ (x ++ y)) = tail) :
    numberTail (tail ++ x) = tail := by
  -- any digit in front makes literals of both
  have hzero : '0'.isDigit = true := rfl
  have hlong := length_le_numberTail (h ▸ isLiteral_numberTail hzero (tail ++ (x ++ y)))
    (List.prefix_append tail x)
  have hpart : numberTail (tail ++ x) <+: tail ++ (x ++ y) := by
    rw [← List.append_assoc]
    exact numberTail_isPrefix.trans (List.prefix_append _ _)
  have hshort := length_le_numberTail (isLiteral_numberTail hzero (tail ++ x)) hpart
  rw [h] at hshort
  have htail : tail <+: numberTail (tail ++ x) :=
    List.prefix_of_prefix_length_le (List.prefix_append _ _) numberTail_isPrefix hlong
  exact (htail.eq_of_length_le hshort).symm

theorem scan_cut (h : scan c (tail ++ (x ++ y)) = (r, tail)) :
    scan c (tail ++ x) = (r, tail) := by
  by_cases hname : startsName c = true
  · rw [scan_of_startsName hname] at h ⊢
    obtain ⟨hr, htail⟩ := Prod.mk.inj h
    rw [takeWhile_cut htail, ← hr, htail]
  · by_cases hdigit : c.isDigit = true
    · rw [scan_of_isDigit hname hdigit] at h ⊢
      obtain ⟨hr, htail⟩ := Prod.mk.inj h
      rw [numberTail_cut htail, ← hr, htail]
    · rw [scan_of_other hname hdigit] at h ⊢
      exact h

theorem spells_word (hstart : startsName c = true) (h : ∀ x ∈ tail, continuesName x = true) :
    Spells (c :: tail) (word (String.ofList (c :: tail))) := by
  have hchars : (String.ofList (c :: tail)).toList = c :: tail := String.toList_ofList
  have hidentifier : IsIdentifier (String.ofList (c :: tail)) := ⟨c, tail, hchars, hstart, h⟩
  generalize String.ofList (c :: tail) = name at hchars hidentifier
  rw [← hchars, word]
  split
  · next heq => exact heq ▸ .keyword .define
  · next hdefine =>
      split
      · next heq => exact heq ▸ .keyword .giveBack
      · next hreturn => exact .identifier ⟨hidentifier, hdefine, hreturn⟩

theorem spells_of_scan {t : Token} (h : scan c rest = (.ok t, tail)) : Spells (c :: tail) t := by
  by_cases hname : startsName c = true
  · rw [scan_of_startsName hname] at h
    obtain ⟨ht, rfl⟩ := Prod.mk.inj h
    cases ht
    exact spells_word hname fun x hx => List.mem_takeWhile_imp hx
  · by_cases hdigit : c.isDigit = true
    · rw [scan_of_isDigit hname hdigit] at h
      obtain ⟨ht, rfl⟩ := Prod.mk.inj h
      rw [literal] at ht
      split at ht
      · next hfinite =>
          cases ht
          exact .number (isLiteral_numberTail hdigit rest) hfinite
      · cases ht
    · rw [scan_of_other hname hdigit] at h
      obtain ⟨ht, rfl⟩ := Prod.mk.inj h
      split at ht
      · next s hs =>
          cases ht
          have hchar : s.char = c := by simpa using List.find?_some hs
          exact hchar ▸ .symbol s
      · cases ht

theorem shape_of_spells {t : Token} (h : Spells (c :: more) t) :
    (startsName c = true ∧ ∀ x ∈ more, continuesName x = true) ∨ IsLiteral (c :: more) ∨
      more = [] ∧ ∃ s, Symbol.char s = c := by
  have hword {name : String} (h : IsIdentifier name) (htext : c :: more = name.toList) :
      startsName c = true ∧ ∀ x ∈ more, continuesName x = true := by
    obtain ⟨d, tail, hchars, hstart, htail⟩ := h
    obtain ⟨rfl, rfl⟩ := List.cons.inj (htext.trans hchars)
    exact ⟨hstart, htail⟩
  generalize htext : c :: more = text at h
  cases h with
  | keyword k => exact .inl (hword (isIdentifier_keyword k) htext)
  | identifier h => exact .inl (hword h.1 htext)
  | number h => exact .inr (.inl h)
  | symbol s =>
      obtain ⟨rfl, rfl⟩ := List.cons.inj htext
      exact .inr (.inr ⟨rfl, s, rfl⟩)

/-- What is read is as long as any token that begins there. -/
theorem longest_of_scan {t : Token} (h : scan c (tail ++ (more ++ x)) = (r, tail))
    (ht : Spells (c :: (tail ++ more)) t) : more = [] := by
  have hlength : (tail ++ more).length ≤ tail.length := by
    obtain ⟨hname, hall⟩ | hliteral | ⟨hnone, -⟩ := shape_of_spells ht
    · rw [scan_of_startsName hname, ← List.append_assoc] at h
      have htake := congrArg List.length (Prod.mk.inj h).2
      rw [List.takeWhile_append_of_pos hall, List.length_append] at htake
      omega
    · obtain ⟨hdigit, -⟩ := shape_of_isLiteral hliteral
      rw [scan_of_isDigit (not_startsName_of_isDigit hdigit) hdigit] at h
      have hpart : tail ++ more <+: tail ++ (more ++ x) := ⟨x, List.append_assoc _ _ _⟩
      have hle := length_le_numberTail hliteral hpart
      rwa [(Prod.mk.inj h).2] at hle
    · rw [hnone]
      exact Nat.zero_le _
  rw [List.length_append] at hlength
  exact List.eq_nil_of_length_eq_zero (by omega)

/-- A character that is refused begins no token, and a literal that is refused is too large and
does not go on. -/
theorem error_of_scan {e : LexError} (h : scan c (tail ++ x) = (.error e, tail)) :
    (e = .unknownSymbol c ∧ tail = [] ∧ ∀ more t, ¬ Spells (c :: more) t) ∨
      (e = .malformedNumber ∧ IsLiteral (c :: tail) ∧
        (Number.read (c :: tail)).isFinite = false ∧
        ∀ more rest, x = more ++ rest → more ≠ [] → ¬ IsLiteral (c :: (tail ++ more))) := by
  by_cases hname : startsName c = true
  · rw [scan_of_startsName hname] at h
    cases (Prod.mk.inj h).1
  · by_cases hdigit : c.isDigit = true
    · rw [scan_of_isDigit hname hdigit] at h
      obtain ⟨he, htail⟩ := Prod.mk.inj h
      rw [literal, htail] at he
      split at he
      · cases he
      · next hfinite =>
          cases he
          refine .inr ⟨rfl, htail ▸ isLiteral_numberTail hdigit (tail ++ x), by simpa using hfinite,
            ?_⟩
          rintro more rest rfl hmore hliteral
          have hpart : tail ++ more <+: tail ++ (more ++ rest) := ⟨rest, List.append_assoc _ _ _⟩
          have hle := length_le_numberTail hliteral hpart
          rw [htail, List.length_append] at hle
          exact hmore (List.eq_nil_of_length_eq_zero (by omega))
    · rw [scan_of_other hname hdigit] at h
      obtain ⟨he, rfl⟩ := Prod.mk.inj h
      split at he
      · cases he
      · next hnone =>
          cases he
          refine .inl ⟨rfl, rfl, fun more t ht => ?_⟩
          obtain ⟨hstart, -⟩ | hliteral | ⟨-, s, rfl⟩ := shape_of_spells ht
          · exact hname hstart
          · exact hdigit (shape_of_isLiteral hliteral).1
          · rw [Symbol.ofChar?_char] at hnone
            cases hnone

theorem tokens_of_scan {t : Token} (hblank : Text.isBlank c = false)
    (h : scan c (tail ++ x) = (.ok t, tail)) :
    tokens (c :: tail) = .ok [⟨t, 0, Text.byteLength (c :: tail)⟩] := by
  have hscan : scan c (tail ++ []) = (.ok t, tail) := scan_cut h
  rw [List.append_nil] at hscan
  rw [tokens, tokensFrom, if_neg (by simp [hblank]), hscan]
  simp [tokensFrom]

end Lexer

section Texts

variable {start stop : Nat} {c : Char} {text rest : List Char} {t : Located Token}
  {toks : List (Located Token)}

theorem mem_blanks (h : Text.isBlank c = true) : c ∈ [' ', '\t', '\r', '\n', '\x0c'] := by
  simpa [Text.isBlank, or_assoc] using h

theorem LiesAt.behind {before slice after : List Char} (front : List Char)
    (h : LiesAt (start + Text.byteLength front) text t before slice after) :
    LiesAt start (front ++ text) t (front ++ before) slice after where
  toCuts := h.toCuts.behind front
  spells := h.spells
  alone := h.alone
  longest := h.longest

theorem FallsInto.le_start (h : FallsInto start text toks) : ∀ t ∈ toks, start ≤ t.span.start := by
  intro t ht
  obtain ⟨before, slice, after, hlies⟩ := h.lies t ht
  rw [hlies.start_eq]
  exact Nat.le_add_right _ _

theorem fallsInto_nil (start : Nat) : FallsInto start [] [] where
  nonempty := List.forall_mem_nil _
  ordered := .nil
  lies := List.forall_mem_nil _
  blank before c after htext := by simp at htext

theorem FallsInto.skip (hblank : Text.isBlank c = true)
    (h : FallsInto (start + c.utf8Size) rest toks) : FallsInto start (c :: rest) toks where
  nonempty := h.nonempty
  ordered := h.ordered
  lies t ht := by
    obtain ⟨before, slice, after, hlies⟩ := h.lies t ht
    exact ⟨[c] ++ before, slice, after, hlies.behind [c]⟩
  blank before d after htext houtside := by
    cases before with
    | nil =>
        obtain ⟨rfl, -⟩ := List.cons.inj htext
        exact mem_blanks hblank
    | cons b before =>
        obtain ⟨rfl, hrest⟩ := List.cons.inj htext
        refine h.blank before d after hrest fun t ht => ?_
        rw [Nat.add_assoc, ← Text.byteLength_cons]
        exact houtside t ht

theorem FallsInto.cons {slice : List Char}
    (hfirst : LiesAt start (slice ++ rest) t [] slice rest) (hslice : slice ≠ [])
    (h : FallsInto (start + Text.byteLength slice) rest toks) :
    FallsInto start (slice ++ rest) (t :: toks) where
  nonempty := by
    refine List.forall_mem_cons.2 ⟨?_, h.nonempty⟩
    have hpos := Text.byteLength_pos hslice
    rw [hfirst.start_eq, hfirst.stop_eq]
    omega
  ordered := by
    refine .cons (fun t' ht' => ?_) h.ordered
    rw [hfirst.stop_eq]
    exact h.le_start t' ht'
  lies := by
    refine List.forall_mem_cons.2 ⟨⟨[], slice, rest, hfirst⟩, fun t' ht' => ?_⟩
    obtain ⟨before, slice', after, hlies⟩ := h.lies t' ht'
    exact ⟨slice ++ before, slice', after, hlies.behind slice⟩
  blank before c after htext houtside := by
    obtain ⟨hfirst', houtside⟩ := List.forall_mem_cons.1 houtside
    have hlater (middle : List Char) (hbefore : before = slice ++ middle)
        (hrest : rest = middle ++ c :: after) : c ∈ [' ', '\t', '\r', '\n', '\x0c'] := by
      refine h.blank middle c after hrest fun t' ht' => ?_
      rw [Nat.add_assoc, ← Text.byteLength_append, ← hbefore]
      exact houtside t' ht'
    obtain ⟨middle, hbefore, hrest⟩ | ⟨inside, hslice', hrest⟩ :=
      List.append_eq_append_iff.1 htext
    · exact hlater middle hbefore hrest
    · cases inside with
      | nil => exact hlater [] (by simpa using hslice'.symm) (by simpa using hrest.symm)
      | cons d inside =>
          -- the character is in the first token
          refine absurd ?_ hfirst'
          have hpos := d.utf8Size_pos
          rw [hfirst.start_eq, hfirst.stop_eq, hslice', Text.byteLength_append]
          simp only [Text.byteLength_nil, Text.byteLength_cons]
          omega

theorem fallsInto_of_tokensFrom (h : tokensFrom start text = .ok toks) :
    FallsInto start text toks := by
  fun_induction tokensFrom start text generalizing toks with
  | case1 start =>
      cases h
      exact fallsInto_nil start
  | case2 start c rest hblank ih => exact (ih h).skip hblank
  | case3 => cases h
  | case4 start c rest hblank tail stop token hscan =>
      rename_i ih
      obtain ⟨later, hlater, h⟩ := bind_eq_ok_iff.1 h
      cases h
      obtain ⟨behind, rfl⟩ := Lexer.tail_isPrefix hscan
      rw [List.drop_left] at ih hlater
      have hfirst : LiesAt start (c :: tail ++ behind) ⟨token, start, stop⟩ [] (c :: tail)
          behind := by
        refine ⟨⟨rfl, rfl, rfl⟩, Lexer.spells_of_scan hscan,
          Lexer.tokens_of_scan (by simpa using hblank) hscan, ?_⟩
        rintro more rest t' rfl hmore ht'
        exact hmore (Lexer.longest_of_scan hscan ht')
      exact FallsInto.cons hfirst (List.cons_ne_nil _ _) (ih hlater)

/-- Where a text stops falling into tokens: everything before does. -/
theorem stop_of_tokensFrom {e : Located LexError} (h : tokensFrom start text = .error e) :
    ∃ before c tail after, Text.Cuts start text e.span before (c :: tail) after ∧
      Lexer.scan c (tail ++ after) = (.error e.val, tail) ∧
      ∃ toks, tokensFrom start before = .ok toks := by
  fun_induction tokensFrom start text with
  | case1 => cases h
  | case2 start c rest hblank ih =>
      obtain ⟨before, d, tail, after, hcuts, hscan, toks, htoks⟩ := ih h
      refine ⟨[c] ++ before, d, tail, after, hcuts.behind [c], hscan, toks, ?_⟩
      rw [List.singleton_append, tokensFrom, if_pos hblank, htoks]
  | case3 start c rest hblank tail stop e' hscan =>
      cases h
      obtain ⟨behind, rfl⟩ := Lexer.tail_isPrefix hscan
      exact ⟨[], c, tail, behind, ⟨rfl, rfl, rfl⟩, hscan, [], by rw [tokensFrom]⟩
  | case4 start c rest hblank tail stop token hscan =>
      rename_i ih
      obtain ⟨behind, rfl⟩ := Lexer.tail_isPrefix hscan
      rw [List.drop_left] at ih h
      obtain herror | ⟨later, -, h⟩ := bind_eq_error_iff.1 h
      · obtain ⟨before, d, tail', after, hcuts, hscan', toks, htoks⟩ := ih herror
        have hcut : Lexer.scan c (tail ++ before) = (.ok token, tail) :=
          Lexer.scan_cut (y := d :: tail' ++ after) (hcuts.text_eq ▸ hscan)
        refine ⟨c :: tail ++ before, d, tail', after, hcuts.behind (c :: tail), hscan',
          ⟨token, start, stop⟩ :: toks, ?_⟩
        rw [List.cons_append, tokensFrom, if_neg hblank, hcut]
        dsimp only
        rw [List.drop_left, htoks]
        rfl
      · cases h

end Texts

/-- Reading the tokens of a text loses nothing. Where it fails, all that is before falls into
tokens, and the character there begins no token or the literal there is too large. -/
theorem tokens_lose_nothing (text : List Char) :
    (∀ toks, tokens text = .ok toks → FallsInto 0 text toks) ∧
    (∀ c span, tokens text = .error ⟨.unknownSymbol c, span⟩ → ∃ before after,
      Text.Cuts 0 text span before [c] after ∧ (∀ more t, ¬ Spells (c :: more) t) ∧
      ∃ toks, tokens before = .ok toks) ∧
    (∀ span, tokens text = .error ⟨.malformedNumber, span⟩ → ∃ before literal after,
      Text.Cuts 0 text span before literal after ∧ IsLiteral literal ∧
      (∀ more rest, after = more ++ rest → more ≠ [] → ¬ IsLiteral (literal ++ more)) ∧
      (Number.read literal).isFinite = false ∧ ∃ toks, tokens before = .ok toks) := by
  refine ⟨fun toks h => fallsInto_of_tokensFrom h, fun c span h => ?_, fun span h => ?_⟩
  · obtain ⟨before, d, tail, after, hcuts, hscan, hbefore⟩ := stop_of_tokensFrom h
    obtain ⟨hc, rfl, hnone⟩ | ⟨hc, -⟩ := Lexer.error_of_scan hscan
    · cases hc
      exact ⟨before, after, hcuts, hnone, hbefore⟩
    · cases hc
  · obtain ⟨before, d, tail, after, hcuts, hscan, hbefore⟩ := stop_of_tokensFrom h
    obtain ⟨hc, -⟩ | ⟨-, hliteral, hlarge, hlongest⟩ := Lexer.error_of_scan hscan
    · cases hc
    · exact ⟨before, d :: tail, after, hcuts, hliteral, hlongest, hlarge, hbefore⟩

-- a keyword that goes on is an identifier
example : tokens "def define".toList =
    .ok [⟨.keyword .define, 0, 3⟩, ⟨.identifier "define", 4, 10⟩] := by decide +kernel

end Source

end StackCalc
