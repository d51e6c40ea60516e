import Mathlib.Data.List.TakeWhile
import StackCalc.Proofs.Boundaries
import StackCalc.Proofs.Tiling
import StackCalc.Proofs.UnitTexts

/-!
# What a listing shows

The lines of a listing are the instructions in their order and, before them, the labels of their
offsets. So a label has a line where an instruction begins at its address, exactly one and in its
place; a label at the end of the code has none, though jumps and calls are annotated with it as
with any other.
-/

namespace StackCalc

namespace Text

/-- A text within one line. -/
def OneLine (text : String) : Prop := '\n' ∉ text.toList

instance : DecidablePred OneLine := fun _ => inferInstanceAs (Decidable (¬ _))

theorem oneLine_append {s t : String} : OneLine (s ++ t) ↔ OneLine s ∧ OneLine t := by
  simp [OneLine, not_or]

theorem oneLine_ofList {chars : List Char} : OneLine (String.ofList chars) ↔ '\n' ∉ chars := by
  simp [OneLine]

theorem oneLine_intercalate {separator : String} {texts : List String}
    (hseparator : OneLine separator) (h : ∀ text ∈ texts, OneLine text) :
    OneLine (separator.intercalate texts) := by
  induction texts with
  | nil => simp [OneLine]
  | cons text texts ih =>
      obtain ⟨htext, htexts⟩ := List.forall_mem_cons.1 h
      cases texts with
      | nil => simpa [OneLine] using htext
      | cons text' texts =>
          rw [String.intercalate_cons_cons, oneLine_append, oneLine_append]
          exact ⟨⟨htext, hseparator⟩, ih htexts⟩

theorem digitChar_ne_break (n : Nat) : Nat.digitChar n ≠ '\n' := by
  by_cases h : n < 16
  · exact (by decide : ∀ n < 16, Nat.digitChar n ≠ '\n') n h
  · rw [Nat.digitChar]
    repeat rw [if_neg (by omega)]
    decide

theorem break_not_mem_toDigits {base n : Nat} (hbase : 1 < base) :
    '\n' ∉ Nat.toDigits base n := by
  induction n using Nat.strongRecOn with
  | ind n ih =>
      by_cases hsmall : n < base
      · rw [Nat.toDigits_of_lt_base hsmall, List.mem_singleton]
        exact (digitChar_ne_break n).symm
      · rw [Nat.toDigits_of_base_le hbase (Nat.le_of_not_lt hsmall), List.mem_append,
          List.mem_singleton, not_or]
        have hpos : 0 < n := by omega
        exact ⟨ih _ (Nat.div_lt_self hpos hbase), (digitChar_ne_break _).symm⟩

theorem oneLine_hex (width n : Nat) : OneLine (hex width n) := by
  rw [hex, oneLine_ofList, List.leftpad, List.mem_append, not_or]
  refine ⟨fun h => ?_, break_not_mem_toDigits (by omega)⟩
  cases List.eq_of_mem_replicate h

theorem oneLine_address (n : Nat) : OneLine (address n) :=
  oneLine_append.2 ⟨by decide, oneLine_hex 4 n⟩

theorem oneLine_toString (n : Nat) : OneLine (toString n) := by
  rw [Nat.toString_eq_ofList_toDigits, oneLine_ofList]
  exact break_not_mem_toDigits (by omega)

end Text

open Text

theorem Numeral.break_not_mem {text : List Char} (h : Numeral text) : '\n' ∉ text := by
  intro hmem
  cases h with
  | whole _ h => cases h _ hmem
  | pointed _ h _ h' =>
      rcases List.mem_append.1 hmem with hmem | hmem
      · cases h _ hmem
      · rcases List.mem_cons.1 hmem with hpoint | hmem
        · cases hpoint
        · cases h' _ hmem

theorem Number.oneLine_text (a : Number) : OneLine a.text := by
  rw [text, oneLine_ofList, chars]
  split
  · decide
  · have hsign : '\n' ∉ if a.isNegative then ['-'] else [] := by split <;> decide
    have hrest : '\n' ∉ if a.isFinite then a.magnitudeText else ['i', 'n', 'f'] := by
      split
      · exact a.numeral_magnitudeText.break_not_mem
      · decide
    rw [List.mem_append, not_or]
    exact ⟨hsign, hrest⟩

theorem Opcode.oneLine_mnemonic (opcode : Opcode) : OneLine opcode.mnemonic := by
  cases opcode with
  | arith op => cases op <;> decide
  | _ => decide

theorem Instruction.oneLine_text (i : Instruction) : OneLine i.text := by
  have hnamed {operand : String} (h : OneLine operand) :
      OneLine (i.opcode.mnemonic ++ " " ++ operand) :=
    oneLine_append.2 ⟨oneLine_append.2 ⟨i.opcode.oneLine_mnemonic, by decide⟩, h⟩
  have hname (hash : UInt64) : OneLine (hashName hash) :=
    oneLine_append.2 ⟨by decide, oneLine_hex 16 _⟩
  cases i with
  | jump | call => exact hnamed (oneLine_address _)
  | push value => exact hnamed value.oneLine_text
  | set | get | unset => exact hnamed (hname _)
  | interrupt => exact hnamed (oneLine_toString _)
  | ret | pop => decide
  | arith op => exact (Opcode.arith op).oneLine_mnemonic

namespace Assembly

theorem IsName.oneLine {name : String} (h : IsName name) : OneLine name := by
  obtain ⟨c, tail, hchars, hstart, htail⟩ := h
  rw [OneLine, hchars, List.mem_cons, not_or]
  refine ⟨?_, fun hmem => ?_⟩
  · rintro rfl
    cases hstart
  · cases htail _ hmem

theorem isName_of_mem_tokensFrom {start : Nat} {text : List Char} {name : String} {span : Span}
    (h : ⟨.ok (.label name), span⟩ ∈ tokensFrom start text) : IsName name := by
  obtain ⟨before, rest, htokens⟩ := List.append_of_mem h
  obtain ⟨skipped, slice, after, -, hspells, -⟩ := exists_begins_behind htokens
  cases hspells with
  | label hname => exact hname

theorem mem_of_reads {toks : Tokens} {located : List (Located Item)} {name : String}
    {span : Span} (h : Reads toks located) (hmem : ⟨.label name, span⟩ ∈ located) :
    ⟨.ok (.label name), span⟩ ∈ toks := by
  obtain ⟨before, front, after, rfl, hwritten⟩ := h.exists_written hmem
  cases hwritten
  exact List.mem_append_right before List.mem_cons_self

/-- The labels of a unit are spelled as names are. -/
theorem isName_of_assemble {text : List Char} {image : Image} (h : assemble text = .ok image) :
    ∀ name ∈ image.labels.map Prod.fst, IsName name := by
  obtain ⟨located, hreads, hofEntries⟩ := assembleWith_ok h
  intro name hname
  rw [labels_of_ofEntries hofEntries, mem_labelNames] at hname
  obtain ⟨⟨item, span⟩, hmem, rfl⟩ := List.mem_map.1 hname
  exact isName_of_mem_tokensFrom (mem_of_reads hreads hmem)

end Assembly

theorem fst_le_of_mem_startingAt {offset : Nat} {is : List Instruction} :
    ∀ place ∈ startingAt offset is, offset ≤ place.1 := by
  induction is generalizing offset with
  | nil => exact List.forall_mem_nil _
  | cons i is ih =>
      refine List.forall_mem_cons.2 ⟨Nat.le_refl _, fun place hplace => ?_⟩
      exact Nat.le_trans (Nat.le_add_right _ _) (ih place hplace)

theorem pairwise_startingAt (offset : Nat) (is : List Instruction) :
    (startingAt offset is).Pairwise (·.1 < ·.1) := by
  induction is generalizing offset with
  | nil => exact .nil
  | cons i is ih =>
      refine .cons (fun place hplace => ?_) (ih _)
      have hle := fst_le_of_mem_startingAt place hplace
      have hpos := i.encodedLength_pos
      dsimp only
      omega

theorem pairwise_instructions (code : List UInt8) :
    (instructions code).1.Pairwise (·.1 < ·.1) := by
  have htiled := tiled_instructionsFrom 0 code
  rw [instructions]
  generalize instructionsFrom 0 code = read at htiled
  cases htiled with
  | whole is | upTo is => exact pairwise_startingAt 0 is

namespace Labels

variable {labels : Labels} {name : String}

theorem mem_namesAt {offset : Nat} : name ∈ labels.namesAt offset ↔
    ∃ address : UInt32, (name, address) ∈ labels ∧ address.toNat = offset := by
  simp [namesAt, List.mem_mergeSort]

theorem nodup_namesAt (h : (labels.map Prod.fst).Nodup) (offset : Nat) :
    (labels.namesAt offset).Nodup := by
  have hfilter : ((labels.filter (·.2.toNat = offset)).map Prod.fst).Sublist
      (labels.map Prod.fst) := List.filter_sublist.map _
  exact (List.mergeSort_perm _ _).nodup_iff.2 (h.sublist hfilter)

theorem mem_namesAt_iff_lookup (h : (labels.map Prod.fst).Nodup) {offset : Nat} :
    name ∈ labels.namesAt offset ↔
      ∃ address, labels.lookup name = some address ∧ address.toNat = offset := by
  simp only [mem_namesAt, Assembly.Layout.lookup_eq_some_iff_mem h]

end Labels

namespace Listing

/-- A line of a listing: a label, or an instruction with its offset and the labels of its
target. -/
inductive Line
  | label (name : String)
  | code (offset : Nat) (i : Instruction) (targets : List String)

namespace Line

def annotation : List String → String
  | [] => ""
  | names => "  ; " ++ String.intercalate ", " names

def text : Line → String
  | label name => name ++ ":"
  | code offset i targets =>
    s!"    {Text.address offset}  {i.text}" ++ annotation targets

/-- The instruction on the line, with its offset. -/
def code? : Line → Option (Nat × Instruction)
  | label _ => none
  | code offset i _ => some (offset, i)

end Line

/-- There is one line for the label. It stands behind the instructions before its address and in
front of the others, the first of which is the one at its address. -/
structure DefinedAt (name : String) (address : Nat) (before after : List Line) : Prop where
  not_before : .label name ∉ before
  not_after : .label name ∉ after
  behind : ∀ offset i targets, .code offset i targets ∈ before → offset < address
  in_front : ∀ offset i targets, .code offset i targets ∈ after → address ≤ offset
  names : ∃ i targets, .code address i targets ∈ after

/-- What the lines of a listing show: each instruction and each label in its place, but for the
labels at the end of the code. -/
structure Shows (labels : Labels) (code : List UInt8) (lines : List Line) : Prop where
  oneLine : ∀ line ∈ lines, OneLine line.text
  decoded : instructions code = (lines.filterMap Line.code?, none)
  defined : ∀ name address, labels.lookup name = some address →
    (address.toNat < code.length ∧ ∃ before after, lines = before ++ .label name :: after ∧
      DefinedAt name address.toNat before after) ∨
    (address.toNat = code.length ∧ .label name ∉ lines)
  no_other : ∀ name, .label name ∈ lines → ∃ address, labels.lookup name = some address
  targets : ∀ offset i names, .code offset i names ∈ lines → names.Nodup ∧
    ∀ name, name ∈ names ↔
      ∃ address, target? i = some address ∧ labels.lookup name = some address

/-- The labels of the target of an instruction. -/
def targets (labels : Labels) (i : Instruction) : List String :=
  match target? i with
  | none => []
  | some address => labels.namesAt address.toNat

def linesAt (labels : Labels) (place : Nat × Instruction) : List Line :=
  (labels.namesAt place.1).map .label ++ [.code place.1 place.2 (targets labels place.2)]

def shown (labels : Labels) (places : List (Nat × Instruction)) : List Line :=
  places.flatMap (linesAt labels)

section Shown

variable {labels : Labels} {places : List (Nat × Instruction)} {name : String}

theorem annotation_targets (labels : Labels) (i : Instruction) :
    Line.annotation (targets labels i) = note labels i := by
  rw [targets, note]
  cases target? i with
  | none => rfl
  | some address => rfl

theorem listing_eq_shown {code : List UInt8} (h : (instructions code).2 = none) :
    listing labels code =
      .ok (Text.unlines ((shown labels (instructions code).1).map Line.text)) := by
  have hlines (place : Nat × Instruction) : (linesAt labels place).map Line.text =
      lines labels place.1 place.2 := by
    rw [linesAt, List.map_append, List.map_map, lines, List.map_singleton, Line.text,
      annotation_targets]
    rfl
  have hread : instructions code = ((instructions code).1, none) := Prod.ext rfl h
  rw [listing, hread, shown, List.map_flatMap, Text.unlines]
  simp only [hlines]

theorem code_shown (labels : Labels) (places : List (Nat × Instruction)) :
    (shown labels places).filterMap Line.code? = places := by
  have hlines (place : Nat × Instruction) :
      (linesAt labels place).filterMap Line.code? = [place] := by
    rw [linesAt, List.filterMap_append, List.filterMap_map]
    simp [Function.comp_def, Line.code?]
  rw [shown, List.filterMap_flatMap]
  simp [hlines]

theorem label_mem_shown : .label name ∈ shown labels places ↔
    ∃ place ∈ places, name ∈ labels.namesAt place.1 := by
  simp [shown, linesAt]

theorem code_mem_shown {offset : Nat} {i : Instruction} {names : List String} :
    .code offset i names ∈ shown labels places ↔
      (offset, i) ∈ places ∧ names = targets labels i := by
  simp only [shown, linesAt, List.mem_flatMap, List.mem_append, List.mem_map, List.mem_singleton,
    Line.code.injEq, reduceCtorEq, and_false, exists_false, false_or]
  constructor
  · rintro ⟨⟨_, _⟩, hmem, rfl, rfl, rfl⟩
    exact ⟨hmem, rfl⟩
  · rintro ⟨hmem, rfl⟩
    exact ⟨_, hmem, rfl, rfl, rfl⟩

theorem exists_split_of_mem {offset : Nat} {i : Instruction}
    (hsorted : places.Pairwise (·.1 < ·.1)) (h : (offset, i) ∈ places) :
    ∃ front back, places = front ++ (offset, i) :: back ∧
      (∀ place ∈ front, place.1 < offset) ∧ ∀ place ∈ back, offset < place.1 := by
  obtain ⟨front, back, rfl⟩ := List.append_of_mem h
  obtain ⟨-, hrest, hfront⟩ := List.pairwise_append.1 hsorted
  exact ⟨front, back, rfl, fun place hplace => hfront place hplace _ List.mem_cons_self,
    (List.pairwise_cons.1 hrest).1⟩

/-- A label at the offset of an instruction is defined there, and only there. -/
theorem exists_definedAt (hnodup : (labels.map Prod.fst).Nodup)
    (hsorted : places.Pairwise (·.1 < ·.1)) {address : UInt32}
    (hlabel : labels.lookup name = some address)
    (hplace : address.toNat ∈ places.map Prod.fst) :
    ∃ before after, shown labels places = before ++ .label name :: after ∧
      DefinedAt name address.toNat before after := by
  have hother {offset : Nat} (h : name ∈ labels.namesAt offset) : address.toNat = offset := by
    obtain ⟨address', hlabel', hoffset⟩ := (Labels.mem_namesAt_iff_lookup hnodup).1 h
    cases hlabel.symm.trans hlabel'
    exact hoffset
  have hname : name ∈ labels.namesAt address.toNat :=
    (Labels.mem_namesAt_iff_lookup hnodup).2 ⟨address, hlabel, rfl⟩
  obtain ⟨xs, ys, hnames⟩ := List.append_of_mem hname
  have hunique := Labels.nodup_namesAt hnodup address.toNat
  rw [hnames, List.nodup_append, List.nodup_cons] at hunique
  obtain ⟨-, ⟨hys, -⟩, hxs⟩ := hunique
  obtain ⟨⟨offset, i⟩, hmem, hoffset⟩ := List.mem_map.1 hplace
  dsimp only at hoffset
  subst hoffset
  obtain ⟨front, back, rfl, hfront, hback⟩ := exists_split_of_mem hsorted hmem
  refine ⟨shown labels front ++ xs.map .label,
    ys.map .label ++ .code address.toNat i (targets labels i) :: shown labels back, ?_, ?_⟩
  · rw [shown, List.flatMap_append, List.flatMap_cons, linesAt, hnames]
    simp [shown]
  constructor
  case not_before =>
    rw [List.mem_append, label_mem_shown, not_or]
    refine ⟨?_, fun h => ?_⟩
    · rintro ⟨place, hplace, h⟩
      exact Nat.ne_of_gt (hfront place hplace) (hother h)
    · obtain ⟨_, hx, heq⟩ := List.mem_map.1 h
      cases heq
      exact hxs name hx name List.mem_cons_self rfl
  case not_after =>
    rw [List.mem_append, List.mem_cons, label_mem_shown, not_or, not_or]
    refine ⟨fun h => ?_, nofun, ?_⟩
    · obtain ⟨_, hy, heq⟩ := List.mem_map.1 h
      cases heq
      exact hys hy
    · rintro ⟨place, hplace, h⟩
      exact Nat.ne_of_lt (hback place hplace) (hother h)
  case behind =>
    intro offset j names h
    rcases List.mem_append.1 h with h | h
    · exact hfront _ (code_mem_shown.1 h).1
    · simp at h
  case in_front =>
    intro offset j names h
    rcases List.mem_append.1 h with h | h
    · simp at h
    · rcases List.mem_cons.1 h with heq | h
      · cases heq
        exact Nat.le_refl _
      · exact Nat.le_of_lt (hback _ (code_mem_shown.1 h).1)
  case names => exact ⟨i, targets labels i, by simp⟩

theorem mem_targets (hnodup : (labels.map Prod.fst).Nodup) {i : Instruction} :
    name ∈ targets labels i ↔
      ∃ address, target? i = some address ∧ labels.lookup name = some address := by
  rw [targets]
  cases target? i with
  | none => simp
  | some address =>
      simp [Labels.mem_namesAt_iff_lookup hnodup, UInt32.toNat_inj]

theorem nodup_targets (hnodup : (labels.map Prod.fst).Nodup) (i : Instruction) :
    (targets labels i).Nodup := by
  rw [targets]
  split
  · exact List.nodup_nil
  · exact Labels.nodup_namesAt hnodup _

theorem oneLine_annotation {names : List String} (h : ∀ name ∈ names, OneLine name) :
    OneLine (Line.annotation names) := by
  cases names with
  | nil => decide
  | cons name names => exact oneLine_append.2 ⟨by decide, oneLine_intercalate (by decide) h⟩

theorem oneLine_shown (h : ∀ name ∈ labels.map Prod.fst, OneLine name) :
    ∀ line ∈ shown labels places, OneLine line.text := by
  have hnames {offset : Nat} : ∀ name ∈ labels.namesAt offset, OneLine name := by
    intro name hname
    obtain ⟨address, hmem, -⟩ := Labels.mem_namesAt.1 hname
    exact h name (List.mem_map_of_mem hmem)
  have htargets (i : Instruction) : ∀ name ∈ targets labels i, OneLine name := by
    rw [targets]
    split
    · exact List.forall_mem_nil _
    · exact hnames
  intro line hline
  cases line with
  | label name =>
      obtain ⟨place, -, hname⟩ := label_mem_shown.1 hline
      exact oneLine_append.2 ⟨hnames name hname, by decide⟩
  | code offset i names =>
      obtain ⟨-, rfl⟩ := code_mem_shown.1 hline
      have hplace : OneLine s!"    {address offset}  {i.text}" := by
        simp only [toString, oneLine_append]
        exact ⟨⟨⟨by decide, oneLine_address _⟩, by decide⟩, i.oneLine_text⟩
      exact oneLine_append.2 ⟨hplace, oneLine_annotation (htargets i)⟩

/-- Labels that are distinct and lie on boundaries are shown. -/
theorem shows_shown {code : List UInt8} (hnodup : (labels.map Prod.fst).Nodup)
    (honeLine : ∀ name ∈ labels.map Prod.fst, OneLine name) (hcode : SelfContained code)
    (hboundary : ∀ name address, labels.lookup name = some address →
      Boundary code address.toNat) :
    Shows labels code (shown labels (instructions code).1) where
  oneLine := oneLine_shown honeLine
  decoded := Prod.ext (code_shown labels _).symm hcode.decodes
  defined name address hlabel := by
    rcases hboundary name address hlabel with hplace | hend
    · obtain ⟨⟨offset, i⟩, hmem, hoffset⟩ := List.mem_map.1 hplace
      have hlt := Instruction.lt_length_of_decode (hcode.decode_of_mem hmem).1
      exact .inl ⟨hoffset ▸ hlt,
        exists_definedAt hnodup (pairwise_instructions code) hlabel hplace⟩
    · refine .inr ⟨hend, fun h => ?_⟩
      obtain ⟨⟨offset, i⟩, hmem, hname⟩ := label_mem_shown.1 h
      obtain ⟨address', hlabel', hoffset⟩ := (Labels.mem_namesAt_iff_lookup hnodup).1 hname
      cases hlabel.symm.trans hlabel'
      have hlt := Instruction.lt_length_of_decode (hcode.decode_of_mem hmem).1
      dsimp only at hoffset
      omega
  no_other name h := by
    obtain ⟨place, -, hname⟩ := label_mem_shown.1 h
    obtain ⟨address, hlabel, -⟩ := (Labels.mem_namesAt_iff_lookup hnodup).1 hname
    exact ⟨address, hlabel⟩
  targets offset i names h := by
    obtain ⟨-, rfl⟩ := code_mem_shown.1 h
    exact ⟨nodup_targets hnodup i, fun name => mem_targets hnodup⟩

end Shown

end Listing

namespace Assembly

/-- An image has a listing. Its lines are the instructions in order, annotated with the labels of
their targets, and a line for each label in its place, unless the label is at the end of the
code: such a label has none. -/
theorem listing_of_assembled {text : List Char} {image : Image} (h : assemble text = .ok image) :
    ∃ lines : List Listing.Line,
      listing image.labels image.bytecode =
        .ok (Text.unlines (lines.map Listing.Line.text)) ∧
      Listing.Shows image.labels image.bytecode lines := by
  obtain ⟨located, -, hofEntries⟩ := assembleWith_ok h
  have hcode := selfContained_of_ofEntries hofEntries
  refine ⟨Listing.shown image.labels (StackCalc.instructions image.bytecode).1,
    Listing.listing_eq_shown hcode.decodes, ?_⟩
  exact Listing.shows_shown (nodup_labels_of_ofEntries hofEntries)
    (fun name hname => (isName_of_assemble h name hname).oneLine) hcode
    fun name address hlabel => boundary_of_lookup hofEntries hlabel

/-- A unit whose labels are at the beginning and, two of them, at the end. -/
def lastLabels : List Char := "first: call first jmp last last: done:".toList

theorem last_labels_are_not_listed : ∃ image lines, assemble lastLabels = .ok image ∧
    listing image.labels image.bytecode =
      .ok (Text.unlines (List.map Listing.Line.text lines)) ∧
    (∃ before after, lines = before ++ .label "first" :: after ∧
      Listing.DefinedAt "first" 0 before after) ∧
    .label "last" ∉ lines ∧ .label "done" ∉ lines := by
  obtain ⟨image, h, hrun⟩ := exists_of_any (p := fun image =>
    image.labels = [("first", 0), ("last", 10), ("done", 10)] ∧ image.bytecode.length = 10)
    (by decide +kernel : (assemble lastLabels).toOption.any _ = true)
  obtain ⟨hlabels, hlength⟩ := of_decide_eq_true hrun
  obtain ⟨lines, hlines, hshows⟩ := listing_of_assembled h
  have hlast (name : String) (hlookup : image.labels.lookup name = some 10) :
      .label name ∉ lines := by
    rcases hshows.defined name 10 hlookup with ⟨hlt, -⟩ | ⟨-, hnone⟩
    · rw [hlength] at hlt
      exact absurd hlt (Nat.lt_irrefl 10)
    · exact hnone
  refine ⟨image, lines, h, hlines, ?_, hlast "last" (by rw [hlabels]; rfl),
    hlast "done" (by rw [hlabels]; rfl)⟩
  rcases hshows.defined "first" 0 (by rw [hlabels]; rfl) with ⟨-, hdefined⟩ | ⟨hend, -⟩
  · exact hdefined
  · rw [hlength] at hend
    cases hend

end Assembly

end StackCalc
