import StackCalc.Proofs.Readers

/-!
# What a reader has read and what it expects

A reader that succeeds has read a derivation off the front of the tokens. One that refuses a token
has read the beginning of a derivation up to there. In both cases the tokens behind matter only by
the first of them, so that any others with the same first token are met in the same way. A reader
that exceeds a limit does so at one of the tokens. These are rules for telling so of a reader from
what is told of the readers that it is made of.
-/

namespace StackCalc.Source.Parser

variable {α β : Type}

/-- The error of tokens that do not begin with what was expected. -/
def refusal (ending : Span) (expected : Expected) : Tokens → Located ParseError
  | [] => ⟨.unexpectedEnd expected, ending⟩
  | found :: _ => ⟨.unexpected expected found.val, found.span⟩

theorem refuse_eq (ending : Span) (expected : Expected) (tokens : Tokens) :
    (refuse ending expected tokens : Checked α) = .error (refusal ending expected tokens) := by
  cases tokens <;> rfl

theorem refusal_ne_tooDeep (ending : Span) (expected : Expected) (tokens : Tokens) :
    (refusal ending expected tokens).val ≠ .tooDeep := by
  intro h
  cases tokens <;> cases h

/-- Accounts for what a reader does with tokens that are left of all there are: what it reads off
the front has one property if the reading is done, another if a token is refused, and it does the
same with all tokens that go on from there with the same token. -/
def Explains (ending : Span) (all : Tokens) (begins : Tokens → Prop) (reads : α → Tokens → Prop)
    (reader : Reader α) (tokens : Tokens) : Prop :=
  tokens ⊆ all → match reader tokens with
  | .ok (x, rest) => ∃ front, tokens = front ++ rest ∧ reads x front ∧
    ∀ rest', rest'.head? = rest.head? → reader (front ++ rest') = .ok (x, rest')
  | .error e => (∃ t ∈ all, e = ⟨.tooDeep, t.span⟩) ∨
    ∃ front rest expected, tokens = front ++ rest ∧ begins front ∧
      e = refusal ending expected rest ∧ ∀ rest', rest'.head? = rest.head? →
        reader (front ++ rest') = .error (refusal ending expected rest')

/-- The reader is accounted for, whatever it is given. -/
abbrev Explained (ending : Span) (begins : Tokens → Prop) (reads : α → Tokens → Prop)
    (reader : Reader α) : Prop := ∀ all tokens, Explains ending all begins reads reader tokens

section Rules

variable {ending : Span} {begins begins' : Tokens → Prop} {reads : α → Tokens → Prop}
  {reads' : β → Tokens → Prop} {reader : Reader α} {all tokens rest : Tokens}

theorem Explained.shortens (h : Explained ending begins reads reader) : Shortens reader := by
  intro tokens x rest hr
  have hread := h tokens tokens (List.Subset.refl tokens)
  rw [hr] at hread
  obtain ⟨front, rfl, -⟩ := hread
  rw [List.length_append]
  exact Nat.le_add_left _ _

theorem Explains.done {x : α} (h : reads x [])
    (hsame : ∀ rest', rest'.head? = rest.head? → reader rest' = .ok (x, rest')) :
    Explains ending all begins reads reader rest := by
  intro _
  rw [hsame rest rfl]
  exact ⟨[], rfl, h, hsame⟩

theorem Explains.refuse (expected : Expected) (h : begins [])
    (hsame : ∀ rest', rest'.head? = rest.head? →
      reader rest' = Parser.refuse ending expected rest') :
    Explains ending all begins reads reader rest := by
  intro _
  rw [hsame rest rfl, refuse_eq]
  refine .inr ⟨[], rest, expected, rfl, h, rfl, fun rest' hhead => ?_⟩
  rw [List.nil_append, hsame rest' hhead, refuse_eq]

theorem Explains.tooDeep {t : Located Token} (ht : t ∈ tokens)
    (h : reader tokens = .error ⟨.tooDeep, t.span⟩) :
    Explains ending all begins reads reader tokens := by
  intro hall
  rw [h]
  exact .inl ⟨t, hall ht, rfl⟩

theorem head?_append_congr {front rest rest' : Tokens} (h : rest'.head? = rest.head?) :
    (front ++ rest').head? = (front ++ rest).head? := by
  cases front with
  | nil => exact h
  | cons t front => rfl

/-- Another reader will do that agrees on all tokens that begin with the same one. -/
theorem Explains.congr (reader : Reader α) {reader' : Reader α}
    (h : Explains ending all begins reads reader tokens)
    (hsame : ∀ toks, toks.head? = tokens.head? → reader' toks = reader toks) :
    Explains ending all begins reads reader' tokens := by
  intro hall
  have h := h hall
  rw [hsame tokens rfl]
  cases hresult : reader tokens with
  | ok read =>
      rw [hresult] at h
      obtain ⟨front, rfl, hreads, hagain⟩ := h
      refine ⟨front, rfl, hreads, fun rest' hhead => ?_⟩
      rw [hsame _ (head?_append_congr hhead), hagain rest' hhead]
  | error e =>
      rw [hresult] at h
      obtain hdeep | ⟨front, rest, expected, rfl, hbegins, he, hagain⟩ := h
      · exact .inl hdeep
      · refine .inr ⟨front, rest, expected, rfl, hbegins, he, fun rest' hhead => ?_⟩
        rw [hsame _ (head?_append_congr hhead), hagain rest' hhead]

/-- Another reader will do that agrees on all tokens that begin with the same two, if the first is
sure to be taken. -/
theorem Explains.congr_behind (reader : Reader α) {reader' : Reader α} {t : Located Token}
    {expected : Expected} (h : Explains ending all begins reads reader (t :: rest))
    (htake : reader [t] = Parser.refuse ending expected [])
    (hsame : ∀ toks, toks.head? = rest.head? → reader' (t :: toks) = reader (t :: toks)) :
    Explains ending all begins reads reader' (t :: rest) := by
  intro hall
  have h := h hall
  rw [hsame rest rfl]
  cases hresult : reader (t :: rest) with
  | ok read =>
      rw [hresult] at h
      obtain ⟨front, hfront, hreads, hagain⟩ := h
      cases front with
      | nil => cases htake.symm.trans (hagain [t] (congrArg List.head? hfront :))
      | cons first front =>
          obtain ⟨rfl, rfl⟩ := List.cons.inj hfront
          refine ⟨t :: front, rfl, hreads, fun rest' hhead => ?_⟩
          rw [List.cons_append, hsame _ (head?_append_congr hhead)]
          exact hagain rest' hhead
  | error e =>
      rw [hresult] at h
      obtain hdeep | ⟨front, left, expected', hfront, hbegins, he, hagain⟩ := h
      · exact .inl hdeep
      cases front with
      | nil => cases htake.symm.trans (hagain [t] (congrArg List.head? hfront :))
      | cons first front =>
          obtain ⟨rfl, rfl⟩ := List.cons.inj hfront
          refine .inr ⟨t :: front, left, expected', rfl, hbegins, he, fun rest' hhead => ?_⟩
          rw [List.cons_append, hsame _ (head?_append_congr hhead)]
          exact hagain rest' hhead

theorem Explains.imp {reads' : α → Tokens → Prop}
    (h : Explains ending all begins reads reader tokens)
    (hbegins : ∀ front, begins front → begins' front)
    (hreads : ∀ x front, reads x front → reads' x front) :
    Explains ending all begins' reads' reader tokens := by
  intro hall
  have h := h hall
  cases hresult : reader tokens with
  | ok read =>
      rw [hresult] at h
      obtain ⟨front, hfront, h, hagain⟩ := h
      exact ⟨front, hfront, hreads _ front h, hagain⟩
  | error e =>
      rw [hresult] at h
      obtain hdeep | ⟨front, rest, expected, hfront, h, hlater⟩ := h
      · exact .inl hdeep
      · exact .inr ⟨front, rest, expected, hfront, hbegins front h, hlater⟩

/-- A token in front of what is read. -/
theorem Explains.cons (reader : Reader α) {t : Located Token} {reader' : Reader α}
    (h : t ∈ all → Explains ending all (fun front => begins (t :: front))
      (fun x front => reads x (t :: front)) reader rest)
    (hsame : ∀ toks, reader' (t :: toks) = reader toks) :
    Explains ending all begins reads reader' (t :: rest) := by
  intro hall
  obtain ⟨ht, hrest⟩ := List.cons_subset.1 hall
  have h := h ht hrest
  rw [hsame rest]
  cases hresult : reader rest with
  | ok read =>
      rw [hresult] at h
      obtain ⟨front, rfl, hreads, hagain⟩ := h
      refine ⟨t :: front, rfl, hreads, fun rest' hhead => ?_⟩
      rw [List.cons_append, hsame, hagain rest' hhead]
  | error e =>
      rw [hresult] at h
      obtain hdeep | ⟨front, rest, expected, rfl, hbegins, he, hagain⟩ := h
      · exact .inl hdeep
      · refine .inr ⟨t :: front, rest, expected, rfl, hbegins, he, fun rest' hhead => ?_⟩
        rw [List.cons_append, hsame, hagain rest' hhead]

/-- One reader after another. -/
theorem Explains.bind {next : α × Tokens → Checked (β × Tokens)}
    (h : Explains ending all begins reads reader tokens)
    (hnext : ∀ x front rest, tokens = front ++ rest → reads x front →
      Explains ending all (fun later => begins (front ++ later))
        (fun y later => reads' y (front ++ later)) (fun toks => next (x, toks)) rest) :
    Explains ending all begins reads' (fun toks => reader toks >>= next) tokens := by
  intro hall
  have h := h hall
  dsimp only
  cases hresult : reader tokens with
  | error e =>
      rw [hresult] at h
      obtain hdeep | ⟨front, rest, expected, hfront, hbegins, he, hagain⟩ := h
      · exact .inl hdeep
      · refine .inr ⟨front, rest, expected, hfront, hbegins, he, fun rest' hhead => ?_⟩
        rw [hagain rest' hhead]
        rfl
  | ok read =>
      obtain ⟨x, rest⟩ := read
      rw [hresult] at h
      obtain ⟨front, rfl, hreads, hagain⟩ := h
      have hlater := hnext x front rest rfl hreads (List.append_subset.1 hall).2
      dsimp only at hlater
      have hrun : (Except.ok (x, rest) : Checked (α × Tokens)) >>= next = next (x, rest) := rfl
      rw [hrun]
      cases hresult' : next (x, rest) with
      | ok read' =>
          rw [hresult'] at hlater
          obtain ⟨front₂, rfl, hreads₂, hagain₂⟩ := hlater
          refine ⟨front ++ front₂, (List.append_assoc _ _ _).symm, hreads₂, ?_⟩
          intro rest' hhead
          rw [List.append_assoc, hagain _ (head?_append_congr hhead)]
          exact hagain₂ rest' hhead
      | error e =>
          rw [hresult'] at hlater
          obtain hdeep | ⟨front₂, rest₂, expected, rfl, hbegins, he, hagain₂⟩ := hlater
          · exact .inl hdeep
          · refine .inr ⟨front ++ front₂, rest₂, expected, (List.append_assoc _ _ _).symm,
              hbegins, he, ?_⟩
            intro rest' hhead
            rw [List.append_assoc, hagain _ (head?_append_congr hhead)]
            exact hagain₂ rest' hhead

/-- A height that is checked behind what was read. -/
theorem Explains.taller {height : Nat} {t : Located Token}
    {next : Tokens → Nat → Checked (α × Tokens)} (ht : t ∈ all)
    (hnext : height + 1 ≤ maxNesting →
      Explains ending all begins reads (fun toks => next toks (height + 1)) tokens) :
    Explains ending all begins reads
      (fun toks => Parser.taller height t.span >>= next toks) tokens := by
  by_cases hlt : height < maxNesting
  · refine Explains.congr _ (hnext hlt) fun toks _ => ?_
    rw [Parser.taller, if_pos hlt]
    rfl
  · have hdeep : Parser.taller height t.span = .error ⟨.tooDeep, t.span⟩ := if_neg hlt
    intro _
    dsimp only
    rw [hdeep]
    exact .inl ⟨t, ht, rfl⟩

theorem explains_symbol (s : Symbol) (hbegins : begins []) :
    Explained ending begins (fun span front => front = [s.at span]) (symbol ending s) := by
  intro all tokens
  by_cases h : ∃ span, tokens.head? = some (s.at span)
  · obtain ⟨span, hhead⟩ := h
    obtain ⟨rest, rfl⟩ := List.head?_eq_some_iff.1 hhead
    exact .cons (fun rest => .ok (span, rest)) (fun _ => .done rfl fun rest' _ => rfl)
      fun toks => symbol_ok.2 rfl
  · refine .refuse _ hbegins fun rest' hhead => symbol_refuse fun span hs => h ⟨span, ?_⟩
    rw [← hhead, hs]

theorem explains_identifier : Explained ending (· = [])
    (fun name front => front = [name.token]) (identifier ending) := by
  intro all tokens
  by_cases h : ∃ name : Ident, tokens.head? = some name.token
  · obtain ⟨name, hhead⟩ := h
    obtain ⟨rest, rfl⟩ := List.head?_eq_some_iff.1 hhead
    exact .cons (fun rest => .ok (name, rest)) (fun _ => .done rfl fun rest' _ => rfl)
      fun toks => identifier_ok.2 rfl
  · refine .refuse _ rfl fun rest' hhead => identifier_refuse fun name hname => h ⟨name, ?_⟩
    rw [← hhead, hname]

end Rules

section Items

variable {ending : Span} {begins begins' begins'' : Tokens → Prop} {reads : α → Tokens → Prop}
  {reads' reads'' : List α → Tokens → Prop} {item : Reader α}

/-- What is read as items with commas between them, given what is read as an item. -/
structure Lists (begins : Tokens → Prop) (reads : α → Tokens → Prop) (begins' : Tokens → Prop)
    (reads' : List α → Tokens → Prop) : Prop where
  first {front} : begins front → begins' front
  last {x front} : reads x front → reads' [x] front
  later {x front later} (comma : Span) : reads x front → begins' later →
    begins' (front ++ Symbol.comma.at comma :: later)
  more {x front xs later} (comma : Span) : reads x front → reads' xs later →
    reads' (x :: xs) (front ++ Symbol.comma.at comma :: later)

theorem explains_separated (hlists : Lists begins reads begins' reads')
    (h : Explained ending begins reads item) :
    Explained ending begins' reads' (fun toks => separated item toks.length toks) := by
  intro all tokens
  induction hlength : tokens.length using Nat.strongRecOn generalizing tokens with
  | ind length ih =>
      subst hlength
      refine .congr _ ?_ fun toks _ => separated_eq h.shortens
      refine .bind ((h all tokens).imp (fun _ => hlists.first) fun _ _ hx => hx) ?_
      intro x front rest hfront hx
      dsimp only
      by_cases hcomma : ∃ comma, rest.head? = some (Symbol.comma.at comma)
      · obtain ⟨comma, hhead⟩ := hcomma
        obtain ⟨behind, rfl⟩ := List.head?_eq_some_iff.1 hhead
        have hshorter : behind.length < tokens.length := by
          rw [hfront, List.length_append, List.length_cons]
          omega
        refine .cons _ (fun _ => ?_) fun toks => itemsBehind_comma
        refine .bind ((ih _ hshorter behind rfl).imp
          (fun later hlater => hlists.later comma hx hlater) fun xs later hxs => hxs) ?_
        intro xs later left _ hxs
        refine .done ?_ fun rest' _ => rfl
        rw [List.append_nil]
        exact hlists.more comma hx hxs
      · refine .done (x := [x]) ?_ fun rest' hhead => itemsBehind_stop ?_
        · rw [List.append_nil]
          exact hlists.last hx
        · rintro ⟨t, place⟩ ht rfl
          exact hcomma ⟨place, hhead ▸ ht⟩

theorem explains_enclosed
    (h : Explained ending begins' reads' (fun toks => separated item toks.length toks))
    (hbegins : ∀ {front}, begins' front → begins'' front)
    (hopen : ∀ {xs front}, reads' xs front → begins'' front)
    (hnone : ∀ span, reads'' [] [Symbol.rightParen.at span])
    (hsome : ∀ {xs front} span, reads' xs front →
      reads'' xs (front ++ [Symbol.rightParen.at span])) :
    Explained ending begins'' reads'' (enclosed ending item) := by
  intro all tokens
  by_cases hparen : ∃ span, tokens.head? = some (Symbol.rightParen.at span)
  · obtain ⟨span, hhead⟩ := hparen
    obtain ⟨rest, rfl⟩ := List.head?_eq_some_iff.1 hhead
    exact .cons (fun rest => .ok ([], rest)) (fun _ => .done (hnone span) fun rest' _ => rfl)
      fun toks => rfl
  · refine .congr _ ?_ fun toks hhead =>
      enclosed_items fun span hspan => hparen ⟨span, hhead ▸ hspan⟩
    refine .bind ((h all tokens).imp (fun _ => hbegins) fun _ _ hxs => hxs) ?_
    intro xs front rest _ hxs
    refine .bind (explains_symbol .rightParen ?_ all rest) ?_
    · rw [List.append_nil]
      exact hopen hxs
    · rintro span _ left _ rfl
      exact .done (hsome span hxs) fun rest' _ => rfl

end Items

end StackCalc.Source.Parser
