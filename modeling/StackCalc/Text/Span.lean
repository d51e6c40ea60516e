/-!
# Positions in a text

A text is a list of characters, and a position in it counts the bytes of its UTF-8 form. A span
runs from its start up to, not including, its stop. Tokens, names and errors are located: they
are kept with the span they were read from or concern.
-/

namespace StackCalc

structure Span where
  start : Nat
  stop : Nat
deriving DecidableEq, Inhabited

structure Located (α : Type) where
  val : α
  span : Span
deriving DecidableEq

namespace Text

def byteLength : List Char → Nat
  | [] => 0
  | c :: text => c.utf8Size + byteLength text

/-- The longest beginning of the text that has at most `n` bytes. It never ends inside a
character. -/
def takeBytes : Nat → List Char → List Char
  | _, [] => []
  | n, c :: text => if c.utf8Size ≤ n then c :: takeBytes (n - c.utf8Size) text else []

@[simp] theorem byteLength_nil : byteLength [] = 0 := rfl

@[simp] theorem byteLength_cons (c : Char) (text : List Char) :
    byteLength (c :: text) = c.utf8Size + byteLength text := rfl

@[simp] theorem byteLength_append (s t : List Char) :
    byteLength (s ++ t) = byteLength s + byteLength t := by
  induction s with
  | nil => simp
  | cons c s ih => simp [ih, Nat.add_assoc]

theorem takeBytes_isPrefix (n : Nat) (text : List Char) : takeBytes n text <+: text := by
  induction text generalizing n with
  | nil => simp [takeBytes]
  | cons c text ih =>
      rw [takeBytes]
      split
      · simpa using ih (n - c.utf8Size)
      · simp

theorem byteLength_takeBytes_le (n : Nat) (text : List Char) :
    byteLength (takeBytes n text) ≤ n := by
  induction text generalizing n with
  | nil => simp [takeBytes]
  | cons c text ih =>
      rw [takeBytes]
      split
      · have := ih (n - c.utf8Size)
        rw [byteLength_cons]
        omega
      · simp

theorem takeBytes_byteLength_append (s t : List Char) : takeBytes (byteLength s) (s ++ t) = s := by
  induction s with
  | nil => cases t with
    | nil => rfl
    | cons c t => simp [takeBytes, Nat.not_le.2 c.utf8Size_pos]
  | cons c s ih => simp [takeBytes, ih]

end Text

end StackCalc
