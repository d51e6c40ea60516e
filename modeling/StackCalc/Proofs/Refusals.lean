import StackCalc.Proofs.Decoding
import StackCalc.Proofs.NumberValue
import StackCalc.Proofs.Units

/-!
# What a unit is refused for

A unit is well formed if its items go together and its targets are labels of it. Of the faults that
a unit may have one counts: where it cannot be read, else the first item that does not go together
with those before it, else the first target that is no label. Laying out knows of a prefix just the
labels, the names and the length; so it takes the items that go together and stops at the first one
that does not.
-/

namespace StackCalc

/-- A table of given names, each of them once, at its hash. -/
structure Names.Holds (hasher : String → UInt64) (given : List String) (names : Names) : Prop where
  distinct : (names.map Prod.fst).Nodup
  lookup_eq : ∀ hash name, names.lookup hash = some name ↔ name ∈ given ∧ hasher name = hash

namespace Assembly

/-- The names of the variables that the commands among items are about, in order. -/
def variableNames (items : List Item) : List String :=
  (commandsOf items).filterMap Operation.name?

@[simp] theorem variableNames_nil : variableNames [] = [] := rfl

@[simp] theorem variableNames_append (xs ys : List Item) :
    variableNames (xs ++ ys) = variableNames xs ++ variableNames ys := by
  unfold variableNames
  rw [commandsOf_append, List.filterMap_append]

@[simp] theorem variableNames_label (name : String) : variableNames [.label name] = [] := rfl

@[simp] theorem variableNames_command (c : Command) :
    variableNames [.command c] = c.name?.toList := by
  cases c <;> rfl

section Rules

variable (hasher : String → UInt64)

/-- Items that go together: no label twice, interrupts by bytes, and names that their hashes tell
apart. -/
structure Consistent (items : List Item) : Prop where
  labels : (labelNames items).Nodup
  interrupts : ∀ value, .command (.interrupt value) ∈ items → value.IsByte
  names : ∀ x ∈ variableNames items, ∀ y ∈ variableNames items, hasher x = hasher y → x = y

/-- Items all of whose targets are labels, but for calls of `print`. -/
structure Linked (items : List Item) : Prop where
  jumps : ∀ target, .command (.jump target) ∈ items → target ∈ labelNames items
  calls : ∀ target, .command (.call target) ∈ items → target ∈ labelNames items ∨
    target = printName

structure WellFormed (items : List Item) : Prop extends Consistent hasher items, Linked items

/-- An item that does not go together with those before it. -/
inductive Clash (before : List Item) : Item → Refusal → Prop
  | label {name} (h : name ∈ labelNames before) : Clash before (.label name) (.duplicateLabel name)
  | interrupt {value} (h : ¬ value.IsByte) :
      Clash before (.command (.interrupt value)) .invalidInterrupt
  | name {c name first} (hname : c.name? = some name) (hfirst : first ∈ variableNames before)
      (hhash : hasher first = hasher name) (hne : first ≠ name) :
      Clash before (.command c) (.hashCollision first name)

/-- A command whose target is not among labels where it has to be. -/
inductive Dangles (labels : List String) : Command → String → Prop
  | jump {target} (h : target ∉ labels) : Dangles labels (.jump target) target
  | call {target} (h : target ∉ labels) (hprint : target ≠ printName) :
      Dangles labels (.call target) target

/-- The refusal of a unit that has a fault, which is the first one of its kind and of a kind that
comes before the others that the unit has. -/
inductive RefusedFor (tokens : Tokens) : Located Refusal → Prop
  | reading {e} (h : RefusedAt tokens e) : RefusedFor tokens e
  | clash {before item span after refusal} (hreads : Reads tokens (before ++ ⟨item, span⟩ :: after))
      (hbefore : Consistent hasher (before.map (·.val)))
      (h : Clash hasher (before.map (·.val)) item refusal) : RefusedFor tokens ⟨refusal, span⟩
  | target {located before c span after name} (hreads : Reads tokens located)
      (hconsistent : Consistent hasher (located.map (·.val)))
      (hlocated : located = before ++ ⟨.command c, span⟩ :: after)
      (hbefore : ∀ earlier ∈ commandsOf (before.map (·.val)), ∀ name,
        ¬ Dangles (labelNames (located.map (·.val))) earlier name)
      (h : Dangles (labelNames (located.map (·.val))) c name) :
      RefusedFor tokens ⟨.undefinedLabel name, span⟩

end Rules

/-- The bytes that a command takes in a unit that defines `print`, or in one that does not. -/
def Command.codeLength (prints : Bool) (c : Command) : Nat :=
  if c = .call printName ∧ prints = false then Opcode.interrupt.encodedLength
  else c.encodedLength

/-- The bytes that the commands among items take. -/
def codeLength (prints : Bool) (items : List Item) : Nat :=
  ((commandsOf items).map (Command.codeLength prints)).sum

theorem codeLength_append (prints : Bool) (xs ys : List Item) :
    codeLength prints (xs ++ ys) = codeLength prints xs + codeLength prints ys := by
  unfold codeLength
  rw [commandsOf_append, List.map_append, List.sum_append]

theorem codeLength_command (prints : Bool) (c : Command) (items : List Item) :
    codeLength prints (.command c :: items) = c.codeLength prints + codeLength prints items :=
  List.sum_cons

theorem codeLength_snoc_label (prints : Bool) (before : List Item) (name : String) :
    codeLength prints (before ++ [.label name]) = codeLength prints before := codeLength_append ..

theorem codeLength_snoc_command (prints : Bool) (before : List Item) (c : Command) :
    codeLength prints (before ++ [.command c]) = codeLength prints before + c.codeLength prints :=
  codeLength_append ..

theorem Command.codeLength_of_ne {c : Command} (h : ∀ target, c ≠ .call target) (prints : Bool) :
    c.codeLength prints = c.encodedLength := if_neg fun hcall => h printName hcall.1

variable {hasher : String → UInt64} {prints : Bool} {before items : List Item} {item : Item}
  {refusal : Refusal}

theorem Consistent.of_append (h : Consistent hasher (before ++ items)) :
    Consistent hasher before where
  labels := (List.nodup_append.1 (labelNames_append before items ▸ h.labels)).1
  interrupts value hvalue := h.interrupts value (List.mem_append_left _ hvalue)
  names x hx y hy := h.names x (by simp [hx]) y (by simp [hy])

theorem Consistent.not_clash (h : Consistent hasher (before ++ [item])) :
    ¬ Clash hasher before item refusal := by
  intro hclash
  cases hclash with
  | label hmem =>
      have hlabels := h.labels
      rw [labelNames_append, List.nodup_append] at hlabels
      exact hlabels.2.2 _ hmem _ (by simp) rfl
  | interrupt hvalue => exact hvalue (h.interrupts _ (by simp))
  | name hname hfirst hhash hne =>
      exact hne (h.names _ (by simp [hfirst]) _ (by simp [hname]) hhash)

theorem Consistent.snoc (h : Consistent hasher before)
    (hclash : ∀ refusal, ¬ Clash hasher before item refusal) :
    Consistent hasher (before ++ [item]) where
  labels := by
    cases item with
    | label name =>
        rw [labelNames_append, List.nodup_append]
        refine ⟨h.labels, by simp, ?_⟩
        rintro known hknown other hother rfl
        have hname : known = name := by simpa using hother
        exact hclash _ (.label (hname ▸ hknown))
    | command c => simpa using h.labels
  interrupts value hvalue := by
    rcases List.mem_append.1 hvalue with hvalue | hvalue
    · exact h.interrupts value hvalue
    · by_contra hbyte
      rw [← List.mem_singleton.1 hvalue] at hclash
      exact hclash _ (.interrupt hbyte)
  names := by
    cases item with
    | label name => simpa using h.names
    | command c =>
        have hnew : ∀ first ∈ variableNames before, ∀ name, c.name? = some name →
            hasher first = hasher name → first = name := by
          intro first hfirst name hname hhash
          by_contra hne
          exact hclash _ (.name hname hfirst hhash hne)
        intro x hx y hy hhash
        rw [variableNames_append, variableNames_command, List.mem_append, Option.mem_toList]
          at hx hy
        rcases hx with hx | hx <;> rcases hy with hy | hy
        · exact h.names x hx y hy hhash
        · exact hnew x hx y hy hhash
        · exact (hnew y hy x hx hhash.symm).symm
        · exact Option.some.inj (hx.symm.trans hy)

namespace Layout

/-- What is known behind some items: their labels, the names of their variables by hash, and their
length in code. -/
structure Knows (hasher : String → UInt64) (prints : Bool) (layout : Layout)
    (before : List Item) : Prop where
  labels : layout.labels.map Prod.fst = labelNames before
  names : layout.names.Holds hasher (variableNames before)
  cursor : layout.cursor = codeLength prints before

variable {layout last : Layout} {span : Span} {name : String} {c : Command}

theorem knows_empty : Layout.empty.Knows hasher prints [] where
  labels := rfl
  names := ⟨List.nodup_nil, fun hash name => by simp [Layout.empty]⟩
  cursor := rfl

theorem address_of_lt (h : layout.cursor < UInt32.size) (span : Span) :
    layout.address span = .ok (UInt32.ofNat layout.cursor) := if_pos h

theorem address_of_le (h : UInt32.size ≤ layout.cursor) (span : Span) :
    layout.address span = .error ⟨.addressOverflow, span⟩ := if_neg (Nat.not_lt.2 h)

theorem Knows.define (h : layout.Knows hasher prints before) (hsize : layout.cursor < UInt32.size)
    (hname : name ∉ labelNames before) (span : Span) :
    ∃ next, layout.define name span = .ok next ∧
      next.Knows hasher prints (before ++ [.label name]) := by
  have hnone : layout.labels.lookup name = none := by rwa [lookup_eq_none_iff, h.labels]
  let next := { layout with labels := layout.labels ++ [(name, UInt32.ofNat layout.cursor)] }
  refine ⟨next, ?_, ?_, ?_, ?_⟩
  · rw [Layout.define, address_of_lt hsize, hnone]
    rfl
  · simp [next, h.labels]
  · simpa using h.names
  · rw [codeLength_snoc_label]
    exact h.cursor

theorem Knows.define_error (h : layout.Knows hasher prints before)
    (hsize : layout.cursor < UInt32.size) (hname : name ∈ labelNames before) (span : Span) :
    layout.define name span = .error ⟨.duplicateLabel name, span⟩ := by
  obtain ⟨address, haddress⟩ := exists_lookup (h.labels ▸ hname)
  rw [Layout.define, address_of_lt hsize, haddress]
  rfl

theorem Knows.past {placed : Placed} {names : Names} (h : layout.Knows hasher prints before)
    (hnames : names.Holds hasher (variableNames before ++ c.name?.toList))
    (hlength : placed.encodedLength = c.codeLength prints) :
    (layout.past placed names).Knows hasher prints (before ++ [.command c]) where
  labels := by simpa [Layout.past] using h.labels
  names := by simpa [Layout.past] using hnames
  cursor := by rw [codeLength_snoc_command, ← h.cursor, ← hlength, Layout.past]

/-- The table with a name that no other of the names shares its hash with. -/
theorem hash_of_holds {given : List String} (h : layout.names.Holds hasher given)
    (hfree : ∀ first ∈ given, hasher first = hasher name → first = name) (span : Span) :
    ∃ names, layout.hash hasher name span = .ok (hasher name, names) ∧
      names.Holds hasher (given ++ [name]) := by
  cases hseen : layout.names.lookup (hasher name) with
  | none =>
      refine ⟨layout.names ++ [(hasher name, name)], ?_, ?_, fun hash other => ?_⟩
      · simp only [Layout.hash, hseen]
      · rw [List.map_append, List.map_singleton]
        refine List.nodup_append.2 ⟨h.distinct, List.nodup_singleton _, ?_⟩
        rintro key hkey other hother rfl
        cases List.mem_singleton.1 hother
        exact lookup_eq_none_iff.1 hseen hkey
      · rw [List.lookup_append, List.mem_append, List.mem_singleton]
        by_cases hsame : hash = hasher name
        · subst hsame
          rw [hseen, Option.none_or, List.lookup_cons_self]
          constructor
          · rintro ⟨⟩
            exact ⟨.inr rfl, rfl⟩
          · rintro ⟨hmem | rfl, hhash⟩
            · rw [hfree other hmem hhash]
            · rfl
        · have hlast : List.lookup hash [(hasher name, name)] = none := by
            rw [List.lookup_cons, beq_eq_false_iff_ne.2 hsame, List.lookup_nil]
          rw [hlast, Option.or_none, h.lookup_eq]
          constructor
          · rintro ⟨hmem, hhash⟩
            exact ⟨.inl hmem, hhash⟩
          · rintro ⟨hmem | rfl, hhash⟩
            · exact ⟨hmem, hhash⟩
            · exact absurd hhash.symm hsame
  | some seen =>
      obtain ⟨hmem, hsame⟩ := (h.lookup_eq _ _).1 hseen
      have hname : seen = name := hfree seen hmem hsame
      refine ⟨layout.names, ?_, h.distinct, fun hash other => ?_⟩
      · simp only [Layout.hash, hseen, if_pos hname]
      · rw [h.lookup_eq, List.mem_append, List.mem_singleton]
        constructor
        · rintro ⟨hother, hhash⟩
          exact ⟨.inl hother, hhash⟩
        · rintro ⟨hother | rfl, hhash⟩
          · exact ⟨hother, hhash⟩
          · exact ⟨hname ▸ hmem, hhash⟩

theorem hash_of_holds_error {given : List String} {first : String}
    (h : layout.names.Holds hasher given) (hfirst : first ∈ given)
    (hhash : hasher first = hasher name) (hne : first ≠ name) (span : Span) :
    layout.hash hasher name span = .error ⟨.hashCollision first name, span⟩ := by
  have hseen : layout.names.lookup (hasher name) = some first :=
    (h.lookup_eq _ _).2 ⟨hfirst, hhash⟩
  simp only [Layout.hash, hseen, if_neg hne]

/-- A command that goes together with what is before it is laid out. -/
theorem Knows.lower_name (h : layout.Knows hasher prints before) (hname : c.name? = some name)
    (hclash : ∀ refusal, ¬ Clash hasher before (.command c) refusal) (span : Span) :
    ∃ placed names, layout.lower hasher prints span c.opcode c.operand = .ok (placed, names) ∧
      (layout.past placed names).Knows hasher prints (before ++ [.command c]) := by
  have hfree : ∀ first ∈ variableNames before, hasher first = hasher name → first = name := by
    intro first hfirst hhash
    by_contra hne
    exact hclash _ (.name hname hfirst hhash hne)
  have hcall : ∀ target, c ≠ .call target := by
    rintro target rfl
    cases hname
  obtain ⟨placed, hlength, hlower⟩ := Layout.exists_lower_name hname
  obtain ⟨names, hhash, hnames⟩ := hash_of_holds h.names hfree span
  refine ⟨placed (hasher name), names, ?_, h.past ?_ ?_⟩
  · rw [hlower, hhash]
    rfl
  · rwa [hname]
  · rw [hlength, Command.codeLength_of_ne hcall]

theorem Knows.lower (h : layout.Knows hasher prints before)
    (hclash : ∀ refusal, ¬ Clash hasher before (.command c) refusal) (span : Span) :
    ∃ placed names, layout.lower hasher prints span c.opcode c.operand = .ok (placed, names) ∧
      (layout.past placed names).Knows hasher prints (before ++ [.command c]) := by
  have hplain (hnone : c.name? = none) (placed : Placed)
      (hlength : placed.encodedLength = c.codeLength prints) :
      (layout.past placed layout.names).Knows hasher prints (before ++ [.command c]) := by
    apply h.past _ hlength
    simpa [hnone] using h.names
  cases c with
  | set name | get name | unset name => exact h.lower_name rfl hclash span
  | call target =>
      rw [Layout.lower_call]
      by_cases hprint : target = printName ∧ prints = false
      · rw [if_pos (by simpa using hprint)]
        refine ⟨_, _, rfl, hplain rfl _ ?_⟩
        rw [Command.codeLength, if_pos (by simpa using hprint)]
        rfl
      · rw [if_neg (by simpa using hprint)]
        refine ⟨_, _, rfl, hplain rfl _ ?_⟩
        rw [Command.codeLength, if_neg (by simpa using hprint)]
        rfl
  | interrupt value =>
      rw [Layout.lower_interrupt]
      cases hbyte : value.toByte? with
      | none => exact absurd (.interrupt (Number.toByte?_eq_none_iff.1 hbyte)) (hclash _)
      | some id =>
          refine ⟨_, _, rfl, hplain rfl _ ?_⟩
          rw [Command.codeLength_of_ne (by simp)]
          rfl
  | jump target | ret | arith op | push value | pop =>
      refine ⟨_, _, rfl, hplain rfl _ ?_⟩
      rw [Command.codeLength_of_ne (by simp)]
      rfl

theorem Knows.lower_error (h : layout.Knows hasher prints before)
    (hclash : Clash hasher before (.command c) refusal) (span : Span) :
    layout.lower hasher prints span c.opcode c.operand = .error ⟨refusal, span⟩ := by
  cases hclash with
  | interrupt hvalue => rw [Layout.lower_interrupt, Number.toByte?_eq_none_iff.2 hvalue]
  | name hname hfirst hhash hne =>
      obtain ⟨placed, -, hlower⟩ := Layout.exists_lower_name hname
      rw [hlower, hash_of_holds_error h.names hfirst hhash hne]
      rfl

section Items

variable {items : List (Located Item)} {all : List (Located Placed)} {item : Item}

/-- An item that goes together with what is before it is laid out, and the others behind it. -/
theorem Knows.place_cons (h : layout.Knows hasher prints before)
    (hsize : layout.cursor < UInt32.size)
    (hclash : ∀ refusal, ¬ Clash hasher before item refusal) (span : Span) :
    ∃ (next : Layout) (placed : List (Located Placed)),
      next.Knows hasher prints (before ++ [item]) ∧
      ∀ items, layout.place hasher prints (entriesOf (⟨item, span⟩ :: items)) =
        next.place hasher prints (entriesOf items) >>=
          fun (rest, last) => .ok (placed ++ rest, last) := by
  cases item with
  | label name =>
      have hname : name ∉ labelNames before := fun hmem => hclash _ (.label hmem)
      obtain ⟨next, hdefine, hknows⟩ := h.define hsize hname span
      refine ⟨next, [], hknows, fun items => ?_⟩
      rw [place_label, hdefine]
      exact (bind_pure _).symm
  | command c =>
      obtain ⟨placed, names, hlower, hknows⟩ := h.lower hclash span
      refine ⟨_, [⟨placed, span⟩], hknows, fun items => ?_⟩
      rw [place_command, address_of_lt hsize, hlower]
      rfl

theorem Knows.place_clash (h : layout.Knows hasher prints before)
    (hsize : layout.cursor < UInt32.size) (hclash : Clash hasher before item refusal)
    (span : Span) :
    layout.place hasher prints (entriesOf (⟨item, span⟩ :: items)) = .error ⟨refusal, span⟩ := by
  cases item with
  | label name =>
      cases hclash with
      | label hmem =>
          rw [place_label, h.define_error hsize hmem]
          rfl
  | command c =>
      rw [place_command, address_of_lt hsize, h.lower_error hclash]
      rfl

theorem Knows.cursor_lt {after : List Item} (h : layout.Knows hasher prints before)
    (hsize : codeLength prints (before ++ after) < UInt32.size) :
    layout.cursor < UInt32.size := by
  rw [codeLength_append] at hsize
  rw [h.cursor]
  omega

theorem Knows.place_ok (h : layout.Knows hasher prints before)
    (hconsistent : Consistent hasher (before ++ items.map (·.val)))
    (hsize : codeLength prints (before ++ items.map (·.val)) < UInt32.size) :
    ∃ all last, layout.place hasher prints (entriesOf items) = .ok (all, last) ∧
      last.Knows hasher prints (before ++ items.map (·.val)) := by
  induction items generalizing layout before with
  | nil => exact ⟨[], layout, rfl, by simpa using h⟩
  | cons item items ih =>
      obtain ⟨item, span⟩ := item
      have hsplit : before ++ (⟨item, span⟩ :: items : List (Located Item)).map (·.val) =
          (before ++ [item]) ++ items.map (·.val) := by simp
      have hcursor := h.cursor_lt hsize
      rw [hsplit] at hconsistent hsize ⊢
      obtain ⟨next, placed, hknows, hplace⟩ :=
        h.place_cons hcursor (fun _ => hconsistent.of_append.not_clash) span
      obtain ⟨rest, last, hrest, hlast⟩ := ih hknows hconsistent hsize
      refine ⟨placed ++ rest, last, ?_, hlast⟩
      rw [hplace, hrest]
      rfl

theorem Knows.place_error {between after : List (Located Item)} {span : Span}
    (h : layout.Knows hasher prints before)
    (hconsistent : Consistent hasher (before ++ between.map (·.val)))
    (hsize : codeLength prints (before ++ (between ++ ⟨item, span⟩ :: after).map (·.val)) <
      UInt32.size)
    (hclash : Clash hasher (before ++ between.map (·.val)) item refusal) :
    layout.place hasher prints (entriesOf (between ++ ⟨item, span⟩ :: after)) =
      .error ⟨refusal, span⟩ := by
  induction between generalizing layout before with
  | nil => exact h.place_clash (h.cursor_lt hsize) (by simpa using hclash) span
  | cons first between ih =>
      obtain ⟨first, place⟩ := first
      have hsplit (later : List (Located Item)) :
          before ++ (⟨first, place⟩ :: later : List (Located Item)).map (·.val) =
            (before ++ [first]) ++ later.map (·.val) := by simp
      have hcursor := h.cursor_lt hsize
      rw [List.cons_append, hsplit] at hsize
      rw [hsplit] at hconsistent hclash
      obtain ⟨next, placed, hknows, hplace⟩ :=
        h.place_cons hcursor (fun _ => hconsistent.of_append.not_clash) place
      rw [List.cons_append, hplace, ih hknows hconsistent hsize hclash]
      rfl

theorem place_of_le (h : UInt32.size ≤ layout.cursor) (item : Located Item)
    (items : List (Located Item)) :
    layout.place hasher prints (entriesOf (item :: items)) =
      .error ⟨.addressOverflow, item.span⟩ := by
  obtain ⟨item, span⟩ := item
  cases item with
  | label name =>
      rw [place_label, Layout.define, address_of_le h]
      rfl
  | command c =>
      rw [place_command, address_of_le h]
      rfl

theorem lt_of_place {item : Located Item}
    (h : layout.place hasher prints (entriesOf (item :: items)) = .ok (all, last)) :
    layout.cursor < UInt32.size := by
  by_contra hle
  rw [place_of_le (Nat.not_lt.1 hle)] at h
  cases h

/-- Items that are laid out go together, and all of them are known behind them. -/
theorem Knows.of_place (h : layout.Knows hasher prints before)
    (hplace : layout.place hasher prints (entriesOf items) = .ok (all, last)) :
    last.Knows hasher prints (before ++ items.map (·.val)) := by
  induction items generalizing layout before all with
  | nil =>
      cases hplace
      simpa using h
  | cons item items ih =>
      have hsize := lt_of_place hplace
      obtain ⟨item, span⟩ := item
      have hclash : ∀ refusal, ¬ Clash hasher before item refusal := by
        intro refusal hclash
        rw [h.place_clash hsize hclash] at hplace
        cases hplace
      obtain ⟨next, placed, hknows, hnext⟩ := h.place_cons hsize hclash span
      rw [hnext] at hplace
      obtain ⟨⟨rest, last'⟩, hrest, hplace⟩ := bind_eq_ok_iff.1 hplace
      cases hplace
      have hlast := ih hknows hrest
      rwa [List.append_assoc] at hlast

/-- Items that are not laid out end where the code cannot be addressed, or they clash. -/
theorem Knows.of_place_error {e : Located Refusal} (h : layout.Knows hasher prints before)
    (hplace : layout.place hasher prints (entriesOf items) = .error e) :
    (∃ item ∈ items, e = ⟨.addressOverflow, item.span⟩) ∨
      ∃ between item after refusal, items = between ++ item :: after ∧
        Clash hasher (before ++ between.map (·.val)) item.val refusal ∧
        e = ⟨refusal, item.span⟩ := by
  induction items generalizing layout before with
  | nil => cases hplace
  | cons item items ih =>
      by_cases hsize : layout.cursor < UInt32.size
      · by_cases hclash : ∃ refusal, Clash hasher before item.val refusal
        · obtain ⟨refusal, hclash⟩ := hclash
          rw [h.place_clash hsize hclash] at hplace
          cases hplace
          refine .inr ⟨[], item, items, refusal, rfl, ?_, rfl⟩
          simpa using hclash
        · obtain ⟨next, placed, hknows, hnext⟩ :=
            h.place_cons hsize (not_exists.1 hclash) item.span
          rw [hnext] at hplace
          obtain hplace | ⟨_, -, hplace⟩ := bind_eq_error_iff.1 hplace
          · obtain ⟨other, hother, rfl⟩ | ⟨between, other, after, refusal, rfl, hfound, rfl⟩ :=
              ih hknows hplace
            · exact .inl ⟨other, List.mem_cons_of_mem _ hother, rfl⟩
            · rw [List.append_assoc] at hfound
              exact .inr ⟨item :: between, other, after, refusal, rfl, hfound, rfl⟩
          · cases hplace
      · rw [place_of_le (Nat.not_lt.1 hsize)] at hplace
        cases hplace
        exact .inl ⟨item, List.mem_cons_self, rfl⟩

/-- A command keeps its span when it is laid out. -/
theorem exists_span_of_place
    (hplace : layout.place hasher prints (entriesOf items) = .ok (all, last)) :
    ∀ placed ∈ all, ∃ item ∈ items, item.span = placed.span := by
  induction items generalizing layout all with
  | nil =>
      cases hplace
      exact List.forall_mem_nil _
  | cons item items ih =>
      obtain ⟨item, span⟩ := item
      cases item with
      | label name =>
          rw [place_label] at hplace
          obtain ⟨next, -, hplace⟩ := bind_eq_ok_iff.1 hplace
          exact fun placed hplaced => List.exists_mem_cons_of_exists (ih hplace placed hplaced)
      | command c =>
          obtain ⟨placed, names, rest, -, hrest, rfl⟩ := place_command_ok hplace
          refine List.forall_mem_cons.2 ⟨⟨_, List.mem_cons_self, rfl⟩, fun placed hplaced => ?_⟩
          exact List.exists_mem_cons_of_exists (ih hrest placed hplaced)

end Items

end Layout

/-- The names of an image are those that its items are about. -/
theorem holds_of_ofEntries {items : List (Located Item)} {image : Image}
    (h : Image.ofEntries hasher (entriesOf items) = .ok image) :
    image.names.Holds hasher (variableNames (items.map (·.val))) := by
  obtain ⟨placed, layout, resolved, hplace, -, rfl⟩ := ofEntries_ok h
  exact (Layout.knows_empty.of_place hplace).names

end Assembly

end StackCalc
