import Mathlib.Data.List.Induction
import StackCalc.Proofs.Refusals

/-!
# The verdict on a unit

Whatever is written, and however names are hashed, a unit of a size that can be addressed assembles
if it is well formed and is refused for its first fault if it is not.
-/

namespace StackCalc.Assembly

variable {hasher : String → UInt64} {prints : Bool} {c : Command} {name : String} {span : Span}

theorem linked_iff {items : List Item} : Linked items ↔
    ∀ c ∈ commandsOf items, ∀ name, ¬ Dangles (labelNames items) c name := by
  constructor
  · intro h c hc name hdangles
    cases hdangles with
    | jump hname => exact hname (h.jumps _ (mem_commandsOf.1 hc))
    | call hname hprint => exact (h.calls _ (mem_commandsOf.1 hc)).elim hname hprint
  · intro h
    constructor
    · intro target htarget
      by_contra hname
      exact h _ (mem_commandsOf.2 htarget) _ (.jump hname)
    · intro target htarget
      by_contra hneither
      obtain ⟨hname, hprint⟩ := not_or.1 hneither
      exact h _ (mem_commandsOf.2 htarget) _ (.call hname hprint)

theorem resolves_of_not_dangles {known : List String} (hprint : prints = true → printName ∈ known)
    (h : ∀ name, ¬ Dangles known c name) : c.Resolves prints known where
  jump := by
    rintro target rfl
    by_contra hname
    exact h _ (.jump hname)
  call := by
    rintro target rfl
    by_contra hneither
    obtain ⟨hname, hother⟩ := not_or.1 hneither
    apply h _ (.call hname _)
    rintro rfl
    exact hname (hprint (by simpa using hother))

theorem consistent_or_clash (hasher : String → UInt64) (items : List (Located Item)) :
    Consistent hasher (items.map (·.val)) ∨ ∃ before item span after refusal,
      items = before ++ ⟨item, span⟩ :: after ∧ Consistent hasher (before.map (·.val)) ∧
        Clash hasher (before.map (·.val)) item refusal := by
  induction items using List.reverseRecOn with
  | nil =>
      left
      constructor <;> simp
  | append_singleton items last ih =>
      obtain hconsistent | ⟨before, item, span, after, refusal, rfl, hbefore, hclash⟩ := ih
      · by_cases h : ∃ refusal, Clash hasher (items.map (·.val)) last.val refusal
        · obtain ⟨refusal, hclash⟩ := h
          exact .inr ⟨items, last.val, last.span, [], refusal, rfl, hconsistent, hclash⟩
        · left
          rw [List.map_append, List.map_singleton]
          exact hconsistent.snoc fun refusal hclash => h ⟨refusal, hclash⟩
      · exact .inr ⟨before, item, span, after ++ [last], refusal, by simp, hbefore, hclash⟩

theorem linked_or_dangles (labels : List String) (items : List (Located Item)) :
    (∀ c ∈ commandsOf (items.map (·.val)), ∀ name, ¬ Dangles labels c name) ∨
      ∃ before c span after name, items = before ++ ⟨.command c, span⟩ :: after ∧
        (∀ earlier ∈ commandsOf (before.map (·.val)), ∀ name, ¬ Dangles labels earlier name) ∧
        Dangles labels c name := by
  induction items using List.reverseRecOn with
  | nil => exact .inl (by simp)
  | append_singleton items last ih =>
      obtain hitems | ⟨before, c, span, after, name, rfl, hbefore, hdangles⟩ := ih
      · obtain ⟨item, span⟩ := last
        simp only [List.map_append, commandsOf_append, List.forall_mem_append]
        cases item with
        | label name => exact .inl ⟨hitems, by simp⟩
        | command c =>
            by_cases h : ∃ name, Dangles labels c name
            · obtain ⟨name, hdangles⟩ := h
              exact .inr ⟨items, c, span, [], name, rfl, hitems, hdangles⟩
            · refine .inl ⟨hitems, ?_⟩
              simpa using h
      · exact .inr ⟨before, c, span, after ++ [last], name, by simp, hbefore, hdangles⟩

namespace Layout

variable {layout last : Layout} {placed : Placed} {names : Names} {known : Labels}
  {items before after : List (Located Item)} {all : List (Located Placed)}

theorem resolve_error_of_lower
    (hlower : layout.lower hasher prints span c.opcode c.operand = .ok (placed, names))
    (h : Dangles (known.map Prod.fst) c name) :
    resolve known ⟨placed, span⟩ = .error ⟨.undefinedLabel name, span⟩ := by
  cases h with
  | jump hname =>
      cases hlower
      simp only [resolve, lookup_eq_none_iff.2 hname]
      rfl
  | call hname hprint =>
      simp only [lower, Operation.opcode, Command.operand] at hlower
      rw [if_neg (by simp [hprint])] at hlower
      cases hlower
      simp only [resolve, lookup_eq_none_iff.2 hname]
      rfl

/-- The targets before the first that is no label are labels, so it is the one complained of. -/
theorem resolve_placed_error
    (hplace : layout.place hasher prints (entriesOf (before ++ ⟨.command c, span⟩ :: after)) =
      .ok (all, last))
    (hprint : prints = true → printName ∈ known.map Prod.fst)
    (hbefore : ∀ earlier ∈ commandsOf (before.map (·.val)), ∀ name,
      ¬ Dangles (known.map Prod.fst) earlier name)
    (h : Dangles (known.map Prod.fst) c name) :
    all.mapM (resolve known) = .error ⟨.undefinedLabel name, span⟩ := by
  induction before generalizing layout all with
  | nil =>
      obtain ⟨placed, names, rest, hlower, -, rfl⟩ := place_command_ok hplace
      rw [List.mapM_cons, resolve_error_of_lower hlower h]
      rfl
  | cons item before ih =>
      obtain ⟨item, place⟩ := item
      cases item with
      | label name =>
          rw [List.cons_append, place_label] at hplace
          obtain ⟨next, -, hplace⟩ := bind_eq_ok_iff.1 hplace
          exact ih hplace hbefore
      | command first =>
          obtain ⟨placed, names, rest, hlower, hrest, rfl⟩ := place_command_ok hplace
          obtain ⟨hfirst, hlater⟩ := List.forall_mem_cons.1 hbefore
          obtain ⟨i, hi⟩ := resolve_of_lower (resolves_of_not_dangles hprint hfirst) hlower
          rw [List.mapM_cons, hi, ih hrest hlater]
          rfl

end Layout

section Images

variable {items before after : List (Located Item)} {item : Item} {refusal : Refusal}

/-- Consistent items are laid out, and what is left to assembling them is to resolve targets. -/
theorem Consistent.ofEntries (h : Consistent hasher (items.map (·.val)))
    (hsize : codeLength (definesPrint (entriesOf items)) (items.map (·.val)) < UInt32.size) :
    ∃ all last,
      Layout.empty.place hasher (definesPrint (entriesOf items)) (entriesOf items) =
        .ok (all, last) ∧
      last.Knows hasher (definesPrint (entriesOf items)) (items.map (·.val)) ∧
      Image.ofEntries hasher (entriesOf items) =
        all.mapM (Layout.resolve last.labels) >>= fun resolved =>
          .ok ⟨resolved.flatMap Instruction.encode, last.labels, last.names⟩ := by
  obtain ⟨all, last, hplace, hknows⟩ := Layout.knows_empty.place_ok h hsize
  have hcursor : last.cursor < UInt32.size := by rwa [hknows.cursor]
  refine ⟨all, last, hplace, hknows, ?_⟩
  rw [Image.ofEntries, hplace]
  cases hlast : all.getLast? with
  | none =>
      simp only [bind, Except.bind, hlast]
      rfl
  | some placed =>
      simp only [bind, Except.bind, hlast, Layout.address_of_lt hcursor]
      rfl

theorem ofEntries_of_wellFormed (h : WellFormed hasher (items.map (·.val)))
    (hsize : codeLength (definesPrint (entriesOf items)) (items.map (·.val)) < UInt32.size) :
    ∃ image, Image.ofEntries hasher (entriesOf items) = .ok image := by
  obtain ⟨all, last, hplace, hknows, hofEntries⟩ := h.toConsistent.ofEntries hsize
  have hresolves : ∀ c, .command c ∈ items.map (·.val) →
      c.Resolves (definesPrint (entriesOf items)) (last.labels.map Prod.fst) := by
    intro c hc
    rw [hknows.labels]
    exact resolves_of_not_dangles definesPrint_iff.1
      (linked_iff.1 h.toLinked c (mem_commandsOf.2 hc))
  obtain ⟨resolved, hresolved⟩ := Layout.resolve_placed hresolves hplace
  rw [hofEntries, hresolved]
  exact ⟨_, rfl⟩

theorem ofEntries_of_clash (hitems : items = before ++ ⟨item, span⟩ :: after)
    (hbefore : Consistent hasher (before.map (·.val)))
    (hclash : Clash hasher (before.map (·.val)) item refusal)
    (hsize : codeLength (definesPrint (entriesOf items)) (items.map (·.val)) < UInt32.size) :
    Image.ofEntries hasher (entriesOf items) = .error ⟨refusal, span⟩ := by
  have hplace : Layout.empty.place hasher (definesPrint (entriesOf items)) (entriesOf items) =
      .error ⟨refusal, span⟩ := by
    generalize definesPrint (entriesOf items) = prints at hsize ⊢
    subst hitems
    exact Layout.knows_empty.place_error hbefore hsize hclash
  rw [Image.ofEntries, hplace]
  rfl

theorem ofEntries_of_dangles (hitems : items = before ++ ⟨.command c, span⟩ :: after)
    (h : Consistent hasher (items.map (·.val)))
    (hbefore : ∀ earlier ∈ commandsOf (before.map (·.val)), ∀ name,
      ¬ Dangles (labelNames (items.map (·.val))) earlier name)
    (hdangles : Dangles (labelNames (items.map (·.val))) c name)
    (hsize : codeLength (definesPrint (entriesOf items)) (items.map (·.val)) < UInt32.size) :
    Image.ofEntries hasher (entriesOf items) = .error ⟨.undefinedLabel name, span⟩ := by
  obtain ⟨all, last, hplace, hknows, hofEntries⟩ := h.ofEntries hsize
  have hprint : definesPrint (entriesOf items) = true →
      printName ∈ labelNames (items.map (·.val)) := definesPrint_iff.1
  rw [← hknows.labels] at hbefore hdangles hprint
  generalize definesPrint (entriesOf items) = prints at hplace hprint
  subst hitems
  rw [hofEntries, Layout.resolve_placed_error hplace hprint hbefore hdangles]
  rfl

end Images

/-- What items are refused for: one of them would begin where the code can no longer be addressed,
does not go together with those before it, or has a target that is no label. -/
inductive ItemsRefused (hasher : String → UInt64) (items : List (Located Item)) :
    Located Refusal → Prop
  | overflow {item} (h : item ∈ items) : ItemsRefused hasher items ⟨.addressOverflow, item.span⟩
  | clash {before item span after refusal} (hitems : items = before ++ ⟨item, span⟩ :: after)
      (h : Clash hasher (before.map (·.val)) item refusal) :
      ItemsRefused hasher items ⟨refusal, span⟩
  | target {before c span after name} (hitems : items = before ++ ⟨.command c, span⟩ :: after)
      (h : Dangles (labelNames (items.map (·.val))) c name) :
      ItemsRefused hasher items ⟨.undefinedLabel name, span⟩

theorem itemsRefused_of_ofEntries {items : List (Located Item)} {e : Located Refusal}
    (h : Image.ofEntries hasher (entriesOf items) = .error e) : ItemsRefused hasher items e := by
  obtain hplace | ⟨all, last, hplace, ⟨placed, hplaced, rfl⟩ | hresolve⟩ := error_of_ofEntries h
  · obtain ⟨item, hitem, rfl⟩ | ⟨before, item, after, refusal, hitems, hclash, rfl⟩ :=
      Layout.knows_empty.of_place_error hplace
    · exact .overflow hitem
    · exact .clash hitems hclash
  · obtain ⟨item, hitem, hspan⟩ := Layout.exists_span_of_place hplace placed hplaced
    exact hspan ▸ .overflow hitem
  · have hlabels := (Layout.knows_empty.of_place hplace).labels
    rw [List.nil_append] at hlabels
    have hprint : definesPrint (entriesOf items) = true → printName ∈ last.labels.map Prod.fst := by
      rw [hlabels]
      exact definesPrint_iff.1
    obtain hlinked | ⟨before, c, span, after, name, hitems, hbefore, hdangles⟩ :=
      linked_or_dangles (last.labels.map Prod.fst) items
    · -- a unit whose targets are all labels is not refused for one
      obtain ⟨resolved, hresolved⟩ := Layout.resolve_placed
        (fun c hc => resolves_of_not_dangles hprint (hlinked c (mem_commandsOf.2 hc))) hplace
      rw [hresolved] at hresolve
      cases hresolve
    · generalize definesPrint (entriesOf items) = prints at hplace hprint
      rw [hitems] at hplace
      rw [Layout.resolve_placed_error hplace hprint hbefore hdangles] at hresolve
      cases hresolve
      exact .target hitems (hlabels ▸ hdangles)

/-- Code of a size that can be addressed, whatever it is written with. -/
def Addressable (tokens : Tokens) : Prop :=
  ∀ items, Reads tokens items →
    codeLength (definesPrint (entriesOf items)) (items.map (·.val)) < UInt32.size

theorem codeLength_le (prints : Bool) (items : List Item) :
    codeLength prints items ≤ 9 * items.length := by
  induction items with
  | nil => exact Nat.le_refl 0
  | cons item items ih =>
      rw [List.length_cons, Nat.mul_succ]
      cases item with
      | label name => exact Nat.le_add_right_of_le ih
      | command c =>
          have hwide (opcode : Opcode) : opcode.encodedLength ≤ 9 := by
            cases opcode <;> simp [Opcode.encodedLength, Opcode.operandWidth]
          have hcommand : c.codeLength prints ≤ 9 := by
            rw [Command.codeLength]
            split
            · exact hwide _
            · exact hwide _
          rw [codeLength_command]
          omega

theorem addressable_of_length {tokens : Tokens} (h : 9 * tokens.length < UInt32.size) :
    Addressable tokens := by
  intro items hreads
  have hlength := hreads.length_le
  have hcode := codeLength_le (definesPrint (entriesOf items)) (items.map (·.val))
  rw [List.length_map] at hcode
  omega

section Verdict

variable {text : List Char} {e : Located Refusal}

theorem assembleWith_of_reads {located : List (Located Item)} (h : Reads (tokens text) located) :
    assembleWith hasher text = Image.ofEntries hasher (entriesOf located) := by
  rw [assembleWith, entries_of_reads h]
  rfl

theorem assembleWith_of_refusedFor (hsize : Addressable (tokens text))
    (h : RefusedFor hasher (tokens text) e) : assembleWith hasher text = .error e := by
  cases h with
  | reading h =>
      rw [assembleWith, entries_of_refusedAt h]
      rfl
  | clash hreads hbefore h =>
      rw [assembleWith_of_reads hreads]
      exact ofEntries_of_clash rfl hbefore h (hsize _ hreads)
  | target hreads hconsistent hlocated hbefore h =>
      rw [assembleWith_of_reads hreads]
      exact ofEntries_of_dangles hlocated hconsistent hbefore h (hsize _ hreads)

theorem wellFormed_or_refusedFor (hasher : String → UInt64) (tokens : Tokens) :
    (∃ located, Reads tokens located ∧ WellFormed hasher (located.map (·.val))) ∨
      ∃ e, RefusedFor hasher tokens e := by
  obtain ⟨located, hreads⟩ | ⟨e, hrefused⟩ := reads_or_refusedAt tokens
  · obtain hconsistent | ⟨before, item, span, after, refusal, rfl, hbefore, hclash⟩ :=
      consistent_or_clash hasher located
    · obtain hlinked | ⟨before, c, span, after, name, hlocated, hbefore, hdangles⟩ :=
        linked_or_dangles (labelNames (located.map (·.val))) located
      · exact .inl ⟨located, hreads, ⟨hconsistent, linked_iff.2 hlinked⟩⟩
      · exact .inr ⟨_, .target hreads hconsistent hlocated hbefore hdangles⟩
    · exact .inr ⟨_, .clash hreads hbefore hclash⟩
  · exact .inr ⟨e, .reading hrefused⟩

/-- A mnemonic that lacks its operand is told the kind of operand that goes with it. -/
theorem RefusedFor.exists_kind {opcode : Opcode} {expected : String} {span : Span}
    (h : RefusedFor hasher (tokens text) ⟨.missingOperand opcode expected, span⟩) :
    ∃ kind, operandKind? opcode = some kind ∧ expected = kind.phrase := by
  cases h with
  | reading h =>
      obtain ⟨before, located, rest, -, -, hrefuses⟩ := h
      cases hrefuses with
      | wrongOperand span place rest hkind htoken => exact ⟨_, hkind, rfl⟩
      | noOperand span hkind => exact ⟨_, hkind, rfl⟩
  | clash hreads hbefore hclash => cases hclash

/-- What is said of a fault begins with a letter, but for a mnemonic that lacks its operand. -/
theorem Refusal.exists_of_message {refusal : Refusal} {opcode : Opcode}
    (h : refusal.message = "'" ++ opcode.mnemonic ++ "' expects an operand") :
    ∃ opcode' expected, refusal = .missingOperand opcode' expected := by
  have hchars := String.toList_inj.2 h
  unfold Refusal.message at hchars
  cases refusal with
  | missingOperand opcode' expected => exact ⟨opcode', expected, rfl⟩
  | _ => simp [toString] at hchars

theorem Refusal.message_missingOperand (opcode : Opcode) (expected : String) :
    (missingOperand opcode expected).message =
      "'" ++ opcode.mnemonic ++ "' expects " ++ expected := by
  unfold Refusal.message
  simp only [toString]

theorem OperandKind.message_ne (kind : OperandKind) (opcode opcode' : Opcode) :
    (Refusal.missingOperand opcode' kind.phrase).message ≠
      "'" ++ opcode.mnemonic ++ "' expects an operand" := by
  rw [Refusal.message_missingOperand]
  intro h
  -- the three texts end in different letters
  have hlast := congrArg (·.toList.getLast?) h
  simp only [String.toList_append, List.getLast?_append] at hlast
  cases kind <;> simp [OperandKind.phrase] at hlast

/-- No unit is told to give an operand of whatever kind. -/
theorem RefusedFor.not_generic {e : Located Refusal} (h : RefusedFor hasher (tokens text) e)
    (opcode : Opcode) : e.val ≠ .missingOperand opcode "an operand" ∧
      e.val.message ≠ "'" ++ opcode.mnemonic ++ "' expects an operand" := by
  have hmessage : e.val.message ≠ "'" ++ opcode.mnemonic ++ "' expects an operand" := by
    intro hmessage
    obtain ⟨refusal, span⟩ := e
    obtain ⟨opcode', expected, rfl⟩ := Refusal.exists_of_message hmessage
    obtain ⟨kind, -, rfl⟩ := h.exists_kind
    exact kind.message_ne opcode opcode' hmessage
  refine ⟨fun hgeneric => hmessage ?_, hmessage⟩
  rw [hgeneric, Refusal.message_missingOperand, ← String.toList_inj]
  simp

theorem exists_image_of_wellFormed (hsize : Addressable (tokens text))
    {located : List (Located Item)} (hreads : Reads (tokens text) located)
    (hwell : WellFormed hasher (located.map (·.val))) :
    ∃ image, assembleWith hasher text = .ok image := by
  rw [assembleWith_of_reads hreads]
  exact ofEntries_of_wellFormed hwell (hsize _ hreads)

theorem refusedFor_of_assembleWith (hsize : Addressable (tokens text))
    (h : assembleWith hasher text = .error e) : RefusedFor hasher (tokens text) e := by
  obtain ⟨located, hreads, hwell⟩ | ⟨e', hrefused⟩ :=
    wellFormed_or_refusedFor hasher (tokens text)
  · obtain ⟨image, himage⟩ := exists_image_of_wellFormed hsize hreads hwell
    rw [himage] at h
    cases h
  · rw [assembleWith_of_refusedFor hsize hrefused] at h
    cases h
    exact hrefused

theorem le_codeLength_of_overflow {located : List (Located Item)} {span : Span}
    (hreads : Reads (tokens text) located)
    (h : assembleWith hasher text = .error ⟨.addressOverflow, span⟩) :
    UInt32.size ≤ codeLength (definesPrint (entriesOf located)) (located.map (·.val)) := by
  by_contra hlt
  have hsize : Addressable (tokens text) := by
    intro items hitems
    obtain rfl := hreads.unique hitems
    exact Nat.not_le.1 hlt
  cases refusedFor_of_assembleWith hsize h with
  | reading h =>
      obtain ⟨before, located, rest, -, -, hrefuses⟩ := h
      cases hrefuses
  | clash hreads hbefore hclash => cases hclash

/-- A unit assembles exactly if it is well formed, and what it is refused for otherwise is its
first fault. A mnemonic that lacks its operand is always told which kind it takes. -/
theorem assembleWith_verdict (hasher : String → UInt64) (text : List Char)
    (hsize : Addressable (tokens text)) :
    ((∃ image, assembleWith hasher text = .ok image) ↔
      ∃ located, Reads (tokens text) located ∧ WellFormed hasher (located.map (·.val))) ∧
    (∀ e, assembleWith hasher text = .error e ↔ RefusedFor hasher (tokens text) e) ∧
    ∀ e, assembleWith hasher text = .error e → ∀ opcode : Opcode,
      e.val ≠ .missingOperand opcode "an operand" ∧
        e.val.message ≠ "'" ++ opcode.mnemonic ++ "' expects an operand" := by
  have hrefused : ∀ e, assembleWith hasher text = .error e → RefusedFor hasher (tokens text) e :=
    fun e => refusedFor_of_assembleWith hsize
  refine ⟨⟨?_, ?_⟩, fun e => ⟨hrefused e, assembleWith_of_refusedFor hsize⟩,
    fun e h => (hrefused e h).not_generic⟩
  · rintro ⟨image, h⟩
    obtain hwell | ⟨e, hrefused⟩ := wellFormed_or_refusedFor hasher (tokens text)
    · exact hwell
    · rw [assembleWith_of_refusedFor hsize hrefused] at h
      cases h
  · rintro ⟨located, hreads, hwell⟩
    exact exists_image_of_wellFormed hsize hreads hwell

/-- A unit with a target that is no label, two names, and an interrupt by no byte. -/
def manyFaults : List Char := "jmp nowhere set a get b int -1".toList

/-- Where every name has the same hash, the second name is the first fault to be found. -/
theorem many_faults_verdict : Addressable (tokens manyFaults) ∧
    RefusedFor (fun _ => 7) (tokens manyFaults) ⟨.hashCollision "a" "b", 18, 23⟩ ∧
    ¬ ∃ located, Reads (tokens manyFaults) located ∧
      WellFormed (fun _ => 7) (located.map (·.val)) := by
  have hsize : Addressable (tokens manyFaults) := addressable_of_length (by decide +kernel)
  have hrefused : assembleWith (fun _ => 7) manyFaults =
      .error ⟨.hashCollision "a" "b", 18, 23⟩ := by
    decide +kernel
  obtain ⟨haccepted, hfaults, -⟩ := assembleWith_verdict (fun _ => 7) manyFaults hsize
  refine ⟨hsize, (hfaults _).1 hrefused, ?_⟩
  rw [← haccepted, hrefused]
  rintro ⟨image, ⟨⟩⟩

end Verdict

end StackCalc.Assembly
