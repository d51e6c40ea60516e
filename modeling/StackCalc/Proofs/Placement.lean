import StackCalc.Proofs.Codec
import StackCalc.Proofs.Entries
import StackCalc.Proofs.NumberValue

/-!
# Where items lie in an image

What assembling promises about its image: the items lie in the code one behind another, each
label names the offset of what follows it, and each command is found there as an instruction that
carries the address of its target or the hash of its name.
-/

namespace StackCalc.Assembly

/-- The instruction that a command has become in an image. -/
inductive Lowers (image : Image) : Command → Instruction → Prop
  | jump {target address} (h : image.labels.lookup target = some address) :
      Lowers image (.jump target) (.jump address)
  | call {target address} (h : image.labels.lookup target = some address) :
      Lowers image (.call target) (.call address)
  | callPrint (h : image.labels.lookup printName = none) :
      Lowers image (.call printName) (.interrupt Interrupt.print.id)
  | ret : Lowers image .ret .ret
  | arith (op) : Lowers image (.arith op) (.arith op)
  | push (value) : Lowers image (.push value) (.push value)
  | pop : Lowers image .pop .pop
  | set {name} (h : image.names.lookup (nameHash name) = some name) :
      Lowers image (.set name) (.set (nameHash name))
  | get {name} (h : image.names.lookup (nameHash name) = some name) :
      Lowers image (.get name) (.get (nameHash name))
  | unset {name} (h : image.names.lookup (nameHash name) = some name) :
      Lowers image (.unset name) (.unset (nameHash name))
  | interrupt {value id} (hfinite : value.isFinite = true) (hvalue : value.toRat = id.toNat) :
      Lowers image (.interrupt value) (.interrupt id)

theorem Lowers.interrupt_inv {image : Image} {value : Number} {i : Instruction}
    (h : Lowers image (.interrupt value) i) :
    ∃ id, value.toByte? = some id ∧ i = .interrupt id := by
  cases h with
  | interrupt hfinite hvalue => exact ⟨_, Number.toByte?_eq_some_iff.2 ⟨hfinite, hvalue⟩, rfl⟩

theorem Lowers.interrupt_unique {image image' : Image} {value : Number} {i i' : Instruction}
    (h : Lowers image (.interrupt value) i) (h' : Lowers image' (.interrupt value) i') :
    i = i' := by
  obtain ⟨id, hid, rfl⟩ := h.interrupt_inv
  obtain ⟨id', hid', rfl⟩ := h'.interrupt_inv
  rw [Option.some.inj (hid.symm.trans hid')]

/-- Items lie in an image from one offset to another. -/
inductive Laid (image : Image) : Nat → List Item → Nat → Prop
  | nil (offset) : Laid image offset [] offset
  | label {name address items stop} (h : image.labels.lookup name = some address)
      (rest : Laid image address.toNat items stop) :
      Laid image address.toNat (.label name :: items) stop
  | command {c i offset items stop} (h : Lowers image c i)
      (decoded : Instruction.decode image.bytecode offset = .ok i)
      (rest : Laid image (offset + i.encodedLength) items stop) :
      Laid image offset (.command c :: items) stop

theorem Laid.append_iff {image : Image} {xs ys : List Item} {start stop : Nat} :
    Laid image start (xs ++ ys) stop ↔
      ∃ mid, Laid image start xs mid ∧ Laid image mid ys stop := by
  constructor
  · intro h
    induction xs generalizing start with
    | nil => exact ⟨start, .nil start, h⟩
    | cons x xs ih =>
        cases h with
        | label h rest =>
            obtain ⟨mid, hxs, hys⟩ := ih rest
            exact ⟨mid, .label h hxs, hys⟩
        | command h decoded rest =>
            obtain ⟨mid, hxs, hys⟩ := ih rest
            exact ⟨mid, .command h decoded hxs, hys⟩
  · rintro ⟨mid, hxs, hys⟩
    induction hxs with
    | nil => exact hys
    | label h _ ih => exact .label h (ih hys)
    | command h decoded _ ih => exact .command h decoded (ih hys)

theorem Laid.le {image : Image} {items : List Item} {start stop : Nat}
    (h : Laid image start items stop) : start ≤ stop := by
  induction h with
  | nil => exact Nat.le_refl _
  | label _ _ ih => exact ih
  | command _ _ _ ih => omega

/-- The names that the labels among items define, in order. -/
def labelNames (items : List Item) : List String :=
  items.filterMap fun
    | .label name => some name
    | .command _ => none

@[simp] theorem labelNames_nil : labelNames [] = [] := rfl

@[simp] theorem labelNames_append (xs ys : List Item) :
    labelNames (xs ++ ys) = labelNames xs ++ labelNames ys := List.filterMap_append

@[simp] theorem labelNames_commands (cs : List Command) :
    labelNames (cs.map .command) = [] := by simp [labelNames]

@[simp] theorem labelNames_label (name : String) (items : List Item) :
    labelNames (.label name :: items) = name :: labelNames items := rfl

@[simp] theorem labelNames_command (c : Command) (items : List Item) :
    labelNames (.command c :: items) = labelNames items := rfl

/-- A command whose target is known, if it has one, or is not needed since it is the interrupt. -/
structure Command.Resolves (prints : Bool) (known : List String) (c : Command) : Prop where
  jump : ∀ target, c = .jump target → target ∈ known
  call : ∀ target, c = .call target → target ∈ known ∨ target = printName ∧ prints = false

namespace Layout

theorem lookup_eq_none_iff {κ α : Type} [BEq κ] [LawfulBEq κ] {entries : List (κ × α)} {key : κ} :
    entries.lookup key = none ↔ key ∉ entries.map Prod.fst := by
  rw [List.lookup_eq_none_iff]
  simp only [List.mem_map, bne_iff_ne, not_exists, not_and]
  constructor
  · intro h entry hentry heq
    exact h entry hentry heq.symm
  · intro h entry hentry heq
    exact h entry hentry heq.symm

theorem lookup_eq_some_iff_mem {κ α : Type} [BEq κ] [LawfulBEq κ] {entries : List (κ × α)}
    (h : (entries.map Prod.fst).Nodup) {key : κ} {value : α} :
    entries.lookup key = some value ↔ (key, value) ∈ entries := by
  rw [List.lookup_eq_some_iff]
  constructor
  · rintro ⟨before, after, rfl, -⟩
    simp
  · intro hmem
    obtain ⟨before, after, rfl⟩ := List.append_of_mem hmem
    rw [List.map_append, List.nodup_append] at h
    refine ⟨before, after, rfl, fun entry hentry => ?_⟩
    have hne := h.2.2 entry.1 (List.mem_map_of_mem hentry) key (by simp)
    rw [bne_iff_ne]
    exact hne.symm

theorem exists_lookup {labels : Labels} {name : String} (h : name ∈ labels.map Prod.fst) :
    ∃ address, labels.lookup name = some address := by
  rw [← Option.ne_none_iff_exists', Ne, lookup_eq_none_iff]
  exact not_not_intro h

/-- Labels and names that are known stay known as they are. -/
structure Extends (later earlier : Layout) : Prop where
  labels : earlier.labels <+: later.labels
  names : earlier.names <+: later.names
  cursor : earlier.cursor ≤ later.cursor

variable {layout next last : Layout} {hasher : String → UInt64} {span : Span}

theorem Extends.refl (layout : Layout) : Extends layout layout :=
  ⟨List.prefix_rfl, List.prefix_rfl, Nat.le_refl _⟩

theorem Extends.trans (h : Extends last next) (h' : Extends next layout) : Extends last layout :=
  ⟨h'.labels.trans h.labels, h'.names.trans h.names, Nat.le_trans h'.cursor h.cursor⟩

theorem lookup_of_prefix {α β : Type} [BEq α] [LawfulBEq α] {xs ys : List (α × β)} {key : α}
    {value : β} (h : xs <+: ys) (hx : xs.lookup key = some value) :
    ys.lookup key = some value := List.IsPrefix.lookup_eq_some h hx

theorem toNat_of_address {address : UInt32} (h : layout.address span = .ok address) :
    address.toNat = layout.cursor := by
  rw [Layout.address] at h
  split at h
  · next hlt =>
      cases h
      exact UInt32.toNat_ofNat_of_lt' hlt
  · cases h

theorem define_ok {name : String} (h : layout.define name span = .ok next) :
    ∃ address, address.toNat = layout.cursor ∧ layout.labels.lookup name = none ∧
      next = { layout with labels := layout.labels ++ [(name, address)] } := by
  rw [define] at h
  cases ha : layout.address span with
  | error e => simp [ha, bind, Except.bind] at h
  | ok address =>
      simp only [ha, bind, Except.bind] at h
      split at h
      · cases h
      · next hnone =>
          cases h
          exact ⟨address, toNat_of_address ha, hnone, rfl⟩

theorem hash_ok {name : String} {key : UInt64} {names : Names}
    (h : layout.hash hasher name span = .ok (key, names)) :
    key = hasher name ∧ layout.names <+: names ∧ names.lookup (hasher name) = some name := by
  simp only [hash] at h
  cases hl : layout.names.lookup (hasher name) with
  | none =>
      simp only [hl] at h
      cases h
      exact ⟨rfl, List.prefix_append _ _, by simp [List.lookup_append, hl]⟩
  | some seen =>
      simp only [hl] at h
      split at h
      · next heq =>
          cases h
          exact ⟨rfl, List.prefix_rfl, by rw [hl, heq]⟩
      · cases h

variable {definesPrint : Bool} {c : Command} {placed : Placed} {names : Names}

theorem lower_names
    (h : layout.lower hasher definesPrint span c.opcode c.operand = .ok (placed, names)) :
    layout.names <+: names := by
  cases c with
  | set name | get name | unset name =>
      obtain ⟨⟨key, found⟩, hh, h⟩ := bind_eq_ok_iff.1 h
      cases h
      exact (hash_ok hh).2.1
  | call target =>
      rw [lower_call] at h
      split at h <;> cases h <;> exact List.prefix_rfl
  | interrupt value =>
      rw [lower_interrupt] at h
      split at h <;> cases h
      exact List.prefix_rfl
  | jump target | ret | arith op | push value | pop =>
      cases h
      exact List.prefix_rfl

theorem lookup_of_target {labels : Labels} {name : String} {e : Located Refusal}
    {address : UInt32} (h : (match labels.lookup name with
      | some address => Except.ok address
      | none => .error e) = .ok address) : labels.lookup name = some address := by
  split at h
  · next ha =>
      cases h
      exact ha
  · cases h

theorem lowers_of_resolve {image : Image} {i : Instruction}
    (hl : layout.lower nameHash definesPrint span c.opcode c.operand = .ok (placed, names))
    (hr : resolve image.labels ⟨placed, span⟩ = .ok i) (hn : names <+: image.names)
    (hp : definesPrint = false → image.labels.lookup printName = none) : Lowers image c i := by
  cases c with
  | set name | get name | unset name =>
      obtain ⟨⟨key, found⟩, hh, hl⟩ := bind_eq_ok_iff.1 hl
      obtain ⟨hkey, -, hfound⟩ := hash_ok hh
      cases hl
      cases hr
      subst hkey
      constructor
      exact lookup_of_prefix hn hfound
  | call target =>
      rw [lower_call] at hl
      split at hl
      · next hprint =>
          simp only [Bool.and_eq_true, decide_eq_true_eq, Bool.not_eq_true'] at hprint
          obtain ⟨rfl, hdefines⟩ := hprint
          cases hl
          cases hr
          exact .callPrint (hp hdefines)
      · cases hl
        obtain ⟨address, ha, hr⟩ := bind_eq_ok_iff.1 hr
        cases hr
        exact .call (lookup_of_target ha)
  | jump target =>
      cases hl
      obtain ⟨address, ha, hr⟩ := bind_eq_ok_iff.1 hr
      cases hr
      exact .jump (lookup_of_target ha)
  | interrupt value =>
      rw [lower_interrupt] at hl
      split at hl
      · next hbyte =>
          cases hl
          cases hr
          obtain ⟨hfinite, hvalue⟩ := Number.toByte?_eq_some_iff.1 hbyte
          exact .interrupt hfinite hvalue
      · cases hl
  | ret | arith op | push value | pop =>
      cases hl
      cases hr
      constructor

theorem resolve_of_lower {known : Labels} (hc : c.Resolves definesPrint (known.map Prod.fst))
    (h : layout.lower hasher definesPrint span c.opcode c.operand = .ok (placed, names)) :
    ∃ i, resolve known ⟨placed, span⟩ = .ok i := by
  cases c with
  | jump target =>
      obtain ⟨address, haddress⟩ := exists_lookup (hc.jump target rfl)
      cases h
      refine ⟨.jump address, ?_⟩
      simp only [resolve, haddress]
      rfl
  | call target =>
      rw [lower_call] at h
      split at h
      · cases h
        exact ⟨_, rfl⟩
      · next hprint =>
          have htarget := (hc.call target rfl).resolve_right (by simpa using hprint)
          obtain ⟨address, haddress⟩ := exists_lookup htarget
          cases h
          refine ⟨.call address, ?_⟩
          simp only [resolve, haddress]
          rfl
  | set name | get name | unset name =>
      obtain ⟨_, -, h⟩ := bind_eq_ok_iff.1 h
      cases h
      exact ⟨_, rfl⟩
  | interrupt value =>
      rw [lower_interrupt] at h
      split at h
      · cases h
        exact ⟨_, rfl⟩
      · cases h
  | ret | arith op | push value | pop =>
      cases h
      exact ⟨_, rfl⟩

theorem resolve_opcode {labels : Labels} {placed : Located Placed} {i : Instruction}
    (h : resolve labels placed = .ok i) : i.opcode = placed.val.opcode := by
  obtain ⟨placed, span⟩ := placed
  cases placed with
  | jump target | call target =>
      obtain ⟨address, -, h⟩ := bind_eq_ok_iff.1 h
      cases h
      rfl
  | ret | arith op | push value | pop | set hash | get hash | unset hash | interrupt id =>
      cases h
      rfl

variable {items : List (Located Item)} {all : List (Located Placed)}

theorem place_extends (h : place hasher definesPrint layout (entriesOf items) = .ok (all, last)) :
    Extends last layout := by
  induction items generalizing layout all with
  | nil =>
      cases h
      exact .refl _
  | cons item items ih =>
      obtain ⟨item, span⟩ := item
      cases item with
      | label name =>
          rw [place_label] at h
          obtain ⟨next, hdefine, h⟩ := bind_eq_ok_iff.1 h
          obtain ⟨address, -, -, rfl⟩ := define_ok hdefine
          exact (ih h).trans ⟨List.prefix_append _ _, List.prefix_rfl, Nat.le_refl _⟩
      | command c =>
          obtain ⟨placed, names, rest, hlower, hrest, rfl⟩ := place_command_ok h
          exact (ih hrest).trans ⟨List.prefix_rfl, lower_names hlower, Nat.le_add_right _ _⟩

/-- What is laid out resolves if all of its commands do. -/
theorem resolve_placed {known : Labels}
    (hitems : ∀ c, .command c ∈ items.map (·.val) →
      c.Resolves definesPrint (known.map Prod.fst))
    (h : place hasher definesPrint layout (entriesOf items) = .ok (all, last)) :
    ∃ resolved, all.mapM (resolve known) = .ok resolved := by
  induction items generalizing layout all with
  | nil =>
      cases h
      exact ⟨[], rfl⟩
  | cons item items ih =>
      obtain ⟨item, span⟩ := item
      have hlater : ∀ c, .command c ∈ items.map (·.val) →
          c.Resolves definesPrint (known.map Prod.fst) :=
        fun c hc => hitems c (List.mem_cons_of_mem _ hc)
      cases item with
      | label name =>
          rw [place_label] at h
          obtain ⟨next, -, h⟩ := bind_eq_ok_iff.1 h
          exact ih hlater h
      | command c =>
          obtain ⟨placed, names, rest, hlower, hrest, rfl⟩ := place_command_ok h
          obtain ⟨i, hi⟩ := resolve_of_lower (hitems c List.mem_cons_self) hlower
          obtain ⟨resolved, hresolved⟩ := ih hlater hrest
          refine ⟨i :: resolved, ?_⟩
          rw [List.mapM_cons, hi, hresolved]
          rfl

theorem labels_of_place (h : place hasher definesPrint layout (entriesOf items) = .ok (all, last)) :
    last.labels.map Prod.fst =
      layout.labels.map Prod.fst ++ labelNames (items.map (·.val)) := by
  induction items generalizing layout all with
  | nil =>
      cases h
      simp [labelNames]
  | cons item items ih =>
      obtain ⟨item, span⟩ := item
      cases item with
      | label name =>
          rw [place_label] at h
          obtain ⟨next, hdefine, h⟩ := bind_eq_ok_iff.1 h
          obtain ⟨address, -, -, rfl⟩ := define_ok hdefine
          rw [ih h]
          simp [labelNames]
      | command c =>
          obtain ⟨placed, names, rest, hlower, hrest, rfl⟩ := place_command_ok h
          rw [ih hrest]
          simp [past, labelNames]

theorem laid_of_place {image : Image} {resolved : List Instruction} {before after : List UInt8}
    (h : place nameHash definesPrint layout (entriesOf items) = .ok (all, last))
    (hr : all.mapM (resolve image.labels) = .ok resolved)
    (hlabels : last.labels <+: image.labels) (hnames : last.names <+: image.names)
    (hp : definesPrint = false → image.labels.lookup printName = none)
    (hcode : image.bytecode = before ++ (resolved.flatMap Instruction.encode ++ after))
    (hlen : before.length = layout.cursor) :
    Laid image layout.cursor (items.map (·.val)) last.cursor ∧
      last.cursor = layout.cursor + (resolved.flatMap Instruction.encode).length := by
  induction items generalizing layout all resolved before with
  | nil =>
      cases h
      cases hr
      exact ⟨.nil _, rfl⟩
  | cons item items ih =>
      obtain ⟨item, span⟩ := item
      cases item with
      | label name =>
          rw [place_label] at h
          obtain ⟨next, hdefine, h⟩ := bind_eq_ok_iff.1 h
          obtain ⟨address, haddress, hnone, rfl⟩ := define_ok hdefine
          -- labels only grow, so this one is still there in the image
          have hfound : image.labels.lookup name = some address := by
            refine lookup_of_prefix ((place_extends h).labels.trans hlabels) ?_
            simp [List.lookup_append, hnone]
          obtain ⟨hlaid, hcursor⟩ := ih h hr hcode hlen
          refine ⟨?_, hcursor⟩
          rw [← haddress] at hlaid ⊢
          exact .label hfound hlaid
      | command c =>
          obtain ⟨placed, names, rest, hlower, hrest, rfl⟩ := place_command_ok h
          rw [List.mapM_cons] at hr
          obtain ⟨i, hi, hr⟩ := bind_eq_ok_iff.1 hr
          obtain ⟨is, his, hr⟩ := bind_eq_ok_iff.1 hr
          cases hr
          have hwidth : placed.encodedLength = i.encodedLength := by
            rw [Operation.encodedLength, Operation.encodedLength, resolve_opcode hi]
          have hcode' : image.bytecode =
              (before ++ i.encode) ++ (is.flatMap Instruction.encode ++ after) := by
            rw [hcode, List.flatMap_cons]
            simp only [List.append_assoc]
          have hlen' : (before ++ i.encode).length = (layout.past placed names).cursor := by
            rw [List.length_append, hlen, Instruction.length_encode, past, hwidth]
          obtain ⟨hlaid, hcursor⟩ := ih hrest his hcode' hlen'
          refine ⟨.command (lowers_of_resolve hlower hi ?_ hp) ?_ ?_, ?_⟩
          · exact (place_extends hrest).names.trans hnames
          · rw [hcode, List.flatMap_cons, List.append_assoc, ← hlen,
              Instruction.decode_append_encode]
          · simpa only [past, hwidth] using hlaid
          · rw [hcursor, List.flatMap_cons, List.length_append, Instruction.length_encode, past,
              hwidth, Nat.add_assoc]

end Layout

theorem mem_labelNames {items : List Item} {name : String} :
    name ∈ labelNames items ↔ Item.label name ∈ items := by
  simp only [labelNames, List.mem_filterMap]
  constructor
  · rintro ⟨item, hitem, h⟩
    cases item with
    | label name' =>
        cases h
        exact hitem
    | command c => cases h
  · intro h
    exact ⟨_, h, rfl⟩

theorem mem_labelNames_of_lookup {labels : Labels} {items : List Item} {name : String}
    {address : UInt32} (hlabels : labels.map Prod.fst = labelNames items)
    (h : labels.lookup name = some address) : name ∈ labelNames items := by
  obtain ⟨before, after, hentries, -⟩ := List.lookup_eq_some_iff.1 h
  rw [← hlabels, hentries]
  simp

theorem definesPrint_iff {items : List (Located Item)} :
    definesPrint (entriesOf items) = true ↔ printName ∈ labelNames (items.map (·.val)) := by
  simp [definesPrint, entriesOf, mem_labelNames, Item.entry_eq_label]

theorem definesPrint_iff_lookup {items : List (Located Item)} {labels : Labels}
    (h : labels.map Prod.fst = labelNames (items.map (·.val))) :
    definesPrint (entriesOf items) = true ↔ labels.lookup printName ≠ none := by
  rw [definesPrint_iff, ← h, Ne, Layout.lookup_eq_none_iff, not_not]

theorem ofEntries_ok {hasher : String → UInt64} {items : List (Located Item)} {image : Image}
    (h : Image.ofEntries hasher (entriesOf items) = .ok image) :
    ∃ placed layout resolved,
      Layout.empty.place hasher (definesPrint (entriesOf items)) (entriesOf items) =
        .ok (placed, layout) ∧
      placed.mapM (Layout.resolve layout.labels) = .ok resolved ∧
      image = ⟨resolved.flatMap Instruction.encode, layout.labels, layout.names⟩ := by
  obtain ⟨⟨placed, layout⟩, hplace, h⟩ := bind_eq_ok_iff.1 h
  have hresolve : (do
      let resolved ← placed.mapM (Layout.resolve layout.labels)
      return (⟨resolved.flatMap Instruction.encode, layout.labels, layout.names⟩ : Image)) =
      (.ok image : Result Image) := by
    cases hlast : placed.getLast? with
    | none => simpa only [hlast] using h
    | some last =>
        simp only [hlast] at h
        obtain ⟨_, -, h⟩ := bind_eq_ok_iff.1 h
        exact h
  obtain ⟨resolved, hresolved, himage⟩ := bind_eq_ok_iff.1 hresolve
  cases himage
  exact ⟨placed, layout, resolved, hplace, hresolved, rfl⟩

/-- Assembling fails at laying out, at the end of the code, or at a target. -/
theorem error_of_ofEntries {hasher : String → UInt64} {items : List (Located Item)}
    {e : Located Refusal} (h : Image.ofEntries hasher (entriesOf items) = .error e) :
    Layout.empty.place hasher (definesPrint (entriesOf items)) (entriesOf items) = .error e ∨
      ∃ all last,
        Layout.empty.place hasher (definesPrint (entriesOf items)) (entriesOf items) =
          .ok (all, last) ∧
        ((∃ placed ∈ all, e = ⟨.addressOverflow, placed.span⟩) ∨
          all.mapM (Layout.resolve last.labels) = .error e) := by
  obtain hplace | ⟨⟨all, last⟩, hplace, h⟩ := bind_eq_error_iff.1 h
  · exact .inl hplace
  refine .inr ⟨all, last, hplace, ?_⟩
  cases hlast : all.getLast? with
  | none =>
      simp only [hlast] at h
      obtain h | ⟨resolved, -, h⟩ := bind_eq_error_iff.1 h
      · exact .inr h
      · cases h
  | some placed =>
      simp only [hlast] at h
      obtain h | ⟨_, -, h⟩ := bind_eq_error_iff.1 h
      · rw [Layout.address] at h
        split at h
        · cases h
        · cases h
          exact .inl ⟨placed, List.mem_of_getLast? hlast, rfl⟩
      · obtain h | ⟨resolved, -, h⟩ := bind_eq_error_iff.1 h
        · exact .inr h
        · cases h

/-- The labels of an image are those of its items. -/
theorem labels_of_ofEntries {hasher : String → UInt64} {items : List (Located Item)}
    {image : Image} (h : Image.ofEntries hasher (entriesOf items) = .ok image) :
    image.labels.map Prod.fst = labelNames (items.map (·.val)) := by
  obtain ⟨placed, layout, resolved, hplace, -, rfl⟩ := ofEntries_ok h
  simpa [Layout.empty] using Layout.labels_of_place hplace

theorem laid_of_ofEntries {items : List (Located Item)} {image : Image}
    (h : Image.ofEntries nameHash (entriesOf items) = .ok image) :
    Laid image 0 (items.map (·.val)) image.bytecode.length := by
  have hlabels := labels_of_ofEntries h
  obtain ⟨placed, layout, resolved, hplace, hresolved, himage⟩ := ofEntries_ok h
  have hsame : layout.labels = image.labels ∧ layout.names = image.names := by simp [himage]
  have hcode : image.bytecode = [] ++ (resolved.flatMap Instruction.encode ++ []) := by
    simp [himage]
  have hprint : definesPrint (entriesOf items) = false → image.labels.lookup printName = none := by
    intro hfalse
    by_contra hsome
    rw [(definesPrint_iff_lookup hlabels).2 hsome] at hfalse
    cases hfalse
  rw [hsame.1] at hresolved
  obtain ⟨hlaid, hcursor⟩ := Layout.laid_of_place hplace hresolved
    (hsame.1 ▸ List.prefix_rfl) (hsame.2 ▸ List.prefix_rfl) hprint hcode rfl
  rw [hcursor] at hlaid
  simpa [Layout.empty, hcode] using hlaid

end StackCalc.Assembly
