import StackCalc.Proofs.World

/-!
# Commands executed

What the machine does at the code of each command, in a state that has what the command asks for:
it goes on behind the command, or at the target of a jump or the address of a return.
-/

namespace StackCalc.Assembly.Laid

open Instruction (decode)

variable {image : Image} {items : List Item} {start stop : Nat} {m : Machine}

theorem label_inv {name : String} (h : Laid image start (.label name :: items) stop) :
    ∃ address, image.labels.lookup name = some address ∧ address.toNat = start ∧
      Laid image start items stop := by
  cases h with
  | label h rest => exact ⟨_, h, rfl, rest⟩

theorem command_inv {c : Command} (h : Laid image start (.command c :: items) stop) :
    ∃ i, Lowers image c i ∧ decode image.bytecode start = .ok i ∧
      Laid image (start + i.encodedLength) items stop := by
  cases h with
  | command h decoded rest => exact ⟨_, h, decoded, rest⟩

theorem nil_inv (h : Laid image start [] stop) : start = stop := by
  cases h
  rfl

theorem push {value : Number} (h : Laid image m.ip (.command (.push value) :: items) stop) :
    ∃ next, Laid image next items stop ∧ decode image.bytecode m.ip = .ok (.push value) ∧
      m.Moves image.bytecode { m with ip := next, operands := value :: m.operands } := by
  obtain ⟨i, hlowers, hd, hrest⟩ := h.command_inv
  cases hlowers
  exact ⟨_, hrest, hd, _, hd, rfl⟩

theorem arith {op : BinaryOp} {lhs rhs : Number} {rest : List Number}
    (h : Laid image m.ip (.command (.arith op) :: items) stop)
    (hop : m.operands = lhs :: rhs :: rest) :
    ∃ next, Laid image next items stop ∧ decode image.bytecode m.ip = .ok (.arith op) ∧
      m.Moves image.bytecode { m with ip := next, operands := op.apply lhs rhs :: rest } := by
  obtain ⟨i, hlowers, hd, hrest⟩ := h.command_inv
  cases hlowers
  refine ⟨_, hrest, hd, _, hd, ?_⟩
  simp only [Machine.execute, Machine.arithmetic, hop]

theorem pop {value : Number} {rest : List Number}
    (h : Laid image m.ip (.command .pop :: items) stop) (hop : m.operands = value :: rest) :
    ∃ next, Laid image next items stop ∧ decode image.bytecode m.ip = .ok .pop ∧
      m.Moves image.bytecode { m with ip := next, operands := rest } := by
  obtain ⟨i, hlowers, hd, hrest⟩ := h.command_inv
  cases hlowers
  refine ⟨_, hrest, hd, _, hd, ?_⟩
  simp only [Machine.execute, Machine.takeOperand, hop]

theorem set {name : String} {value : Number} {rest : List Number}
    (h : Laid image m.ip (.command (.set name) :: items) stop)
    (hop : m.operands = value :: rest) :
    ∃ next, Laid image next items stop ∧ image.Knows name ∧
      decode image.bytecode m.ip = .ok (.set (nameHash name)) ∧
      m.Moves image.bytecode { m with
        ip := next, operands := rest, bindings := m.bindings.push (nameHash name) value } := by
  obtain ⟨i, hlowers, hd, hrest⟩ := h.command_inv
  cases hlowers with
  | set hknown =>
      refine ⟨_, hrest, hknown, hd, _, hd, ?_⟩
      simp only [Machine.execute, Machine.takeOperand, hop]

theorem get {name : String} (h : Laid image m.ip (.command (.get name) :: items) stop) :
    image.Knows name ∧ ∀ value, m.bindings.top? (nameHash name) = some value →
      ∃ next, Laid image next items stop ∧
        decode image.bytecode m.ip = .ok (.get (nameHash name)) ∧
        m.Moves image.bytecode { m with ip := next, operands := value :: m.operands } := by
  obtain ⟨i, hlowers, hd, hrest⟩ := h.command_inv
  cases hlowers with
  | get hknown =>
      refine ⟨hknown, fun value hvalue => ⟨_, hrest, hd, _, hd, ?_⟩⟩
      simp only [Machine.execute, hvalue]

theorem unset {name : String} (h : Laid image m.ip (.command (.unset name) :: items) stop)
    (hstack : m.bindings.stack (nameHash name) ≠ []) :
    ∃ next, Laid image next items stop ∧
      decode image.bytecode m.ip = .ok (.unset (nameHash name)) ∧
      m.Moves image.bytecode { m with
        ip := next, bindings := m.bindings.pop (nameHash name) } := by
  obtain ⟨values, hvalues⟩ := Bindings.stack?_ne_none hstack
  obtain ⟨i, hlowers, hd, hrest⟩ := h.command_inv
  cases hlowers
  refine ⟨_, hrest, hd, _, hd, ?_⟩
  simp only [Machine.execute, hvalues]

theorem ret {address : Nat} {returns : List Nat}
    (h : Laid image m.ip (.command .ret :: items) stop)
    (hreturns : m.returns = address :: returns) :
    decode image.bytecode m.ip = .ok .ret ∧
      m.Moves image.bytecode { m with ip := address, returns := returns } := by
  obtain ⟨i, hlowers, hd, hrest⟩ := h.command_inv
  cases hlowers
  refine ⟨hd, _, hd, ?_⟩
  simp only [Machine.execute, hreturns]

theorem print {value : Number} {rest : List Number}
    (h : Laid image m.ip (.command Compile.printCommand :: items) stop)
    (hop : m.operands = value :: rest) :
    ∃ next, Laid image next items stop ∧
      (∃ id, decode image.bytecode m.ip = .ok (.interrupt id)) ∧
      m.Moves image.bytecode { m with
        ip := next, operands := rest, printed := m.printed.push value } := by
  obtain ⟨i, hlowers, hd, hrest⟩ := h.command_inv
  obtain ⟨id, hid, rfl⟩ := hlowers.interrupt_inv
  cases (by decide : Number.zero.toByte? = some 0).symm.trans hid
  refine ⟨_, hrest, ⟨_, hd⟩, _, hd, ?_⟩
  simp only [Machine.execute, Interrupt.ofId?, if_true, Machine.takeOperand, hop]

/-- A jump goes to what lies at its label, provided that this is inside the code. -/
theorem jump {target : String} {address : UInt32}
    (h : Laid image m.ip (.command (.jump target) :: items) stop)
    (htarget : image.labels.lookup target = some address)
    (hle : address.toNat ≤ image.bytecode.length) :
    decode image.bytecode m.ip = .ok (.jump address) ∧
      m.Moves image.bytecode { m with ip := address.toNat } := by
  obtain ⟨i, hlowers, hd, hrest⟩ := h.command_inv
  cases hlowers with
  | jump hlookup =>
      cases htarget.symm.trans hlookup
      refine ⟨hd, _, hd, ?_⟩
      simp only [Machine.execute, Machine.jump, if_pos hle]

theorem call {target : String} {address : UInt32}
    (h : Laid image start (.command (.call target) :: items) stop)
    (htarget : image.labels.lookup target = some address) :
    decode image.bytecode start = .ok (.call address) ∧ Laid image (start + 5) items stop := by
  obtain ⟨i, hlowers, hd, hrest⟩ := h.command_inv
  cases hlowers with
  | call hlookup =>
      cases htarget.symm.trans hlookup
      exact ⟨hd, hrest⟩
  | callPrint hnone =>
      rw [htarget] at hnone
      cases hnone

end StackCalc.Assembly.Laid
