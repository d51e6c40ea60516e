import StackCalc.Proofs.Scoping
import StackCalc.Proofs.Verdict

/-!
# Collisions of names

A byte is taken into a hash by two steps that can be undone, the exclusive or with it by itself and
the product with the odd prime by the product with its inverse. So every byte permutes the hashes,
and different bytes lead from one hash to different ones. Along a name this means that a common
ending does not matter to a collision, and that names which differ in one byte do not collide: no
unit is refused for such a pair.
-/

namespace StackCalc

namespace NameHash

/-- The inverse of the prime modulo `2 ^ 64`. -/
def primeInverse : UInt64 := 0xce965057aff6957b

theorem prime_mul_primeInverse : prime * primeInverse = 1 := by decide

theorem primeInverse_mul_prime : primeInverse * prime = 1 := by decide

/-- The hash before its last byte was taken in. -/
def expel (hash : UInt64) (byte : UInt8) : UInt64 := (hash * primeInverse) ^^^ byte.toUInt64

variable {hash hash' : UInt64} {byte byte' : UInt8}

theorem expel_absorb (hash : UInt64) (byte : UInt8) : expel (absorb hash byte) byte = hash := by
  rw [expel, absorb, UInt64.mul_assoc, prime_mul_primeInverse, UInt64.mul_one, UInt64.xor_assoc,
    UInt64.xor_self, UInt64.xor_zero]

theorem absorb_expel (hash : UInt64) (byte : UInt8) : absorb (expel hash byte) byte = hash := by
  rw [absorb, expel, UInt64.xor_assoc, UInt64.xor_self, UInt64.xor_zero, UInt64.mul_assoc,
    primeInverse_mul_prime, UInt64.mul_one]

theorem absorb_bijective (byte : UInt8) : Function.Bijective (absorb · byte) :=
  Function.bijective_iff_has_inverse.2
    ⟨(expel · byte), (expel_absorb · byte), (absorb_expel · byte)⟩

theorem absorb_right_inj : absorb hash byte = absorb hash byte' ↔ byte = byte' := by
  constructor
  · intro h
    have hxor : hash ^^^ byte.toUInt64 = hash ^^^ byte'.toUInt64 := by
      have hproduct := congrArg (· * primeInverse) h
      simpa only [absorb, UInt64.mul_assoc, prime_mul_primeInverse, UInt64.mul_one] using hproduct
    exact UInt8.toUInt64_inj.1 ((UInt64.xor_right_inj hash).1 hxor)
  · rintro rfl
    rfl

theorem foldl_absorb_inj (bytes : List UInt8) :
    bytes.foldl absorb hash = bytes.foldl absorb hash' ↔ hash = hash' := by
  induction bytes generalizing hash hash' with
  | nil => rfl
  | cons byte bytes ih =>
      rw [List.foldl_cons, List.foldl_cons, ih]
      exact (absorb_bijective byte).injective.eq_iff

theorem ofBytes_append (x s : List UInt8) : ofBytes (x ++ s) = s.foldl absorb (ofBytes x) :=
  List.foldl_append

/-- A common ending neither makes a collision nor takes one away. -/
theorem ofBytes_append_inj (x y s : List UInt8) :
    ofBytes (x ++ s) = ofBytes (y ++ s) ↔ ofBytes x = ofBytes y := by
  rw [ofBytes_append, ofBytes_append, foldl_absorb_inj]

/-- In one surrounding different bytes have different hashes. -/
theorem ofBytes_replace (u v : List UInt8) :
    ofBytes (u ++ byte :: v) = ofBytes (u ++ byte' :: v) ↔ byte = byte' := by
  rw [ofBytes_append, ofBytes_append, List.foldl_cons, List.foldl_cons, foldl_absorb_inj,
    absorb_right_inj]

end NameHash

def utf8 (name : String) : List UInt8 := name.toUTF8.data.toList

theorem utf8_eq_flatMap (name : String) :
    utf8 name = name.toList.flatMap String.utf8EncodeChar := by
  have hencoded : name.toUTF8 = (name.toList.flatMap String.utf8EncodeChar).toByteArray :=
    String.utf8Encode_toList.symm
  rw [utf8, hencoded, List.data_toByteArray]

theorem utf8_append (x y : String) : utf8 (x ++ y) = utf8 x ++ utf8 y := by
  rw [utf8_eq_flatMap, String.toList_append, List.flatMap_append, ← utf8_eq_flatMap,
    ← utf8_eq_flatMap]

theorem nameHash_eq_ofBytes (name : String) : nameHash name = NameHash.ofBytes (utf8 name) := by
  rw [nameHash, utf8_eq_flatMap]

example : nameHash "foobar" = 0x85944171f73967e8 := by decide +kernel

/-- Names that are the same but for one byte. -/
def OneByteApart (x y : String) : Prop :=
  ∃ u b c v, b ≠ c ∧ utf8 x = u ++ b :: v ∧ utf8 y = u ++ c :: v

namespace OneByteApart

variable {x y : String}

theorem append_left (front : String) (h : OneByteApart x y) :
    OneByteApart (front ++ x) (front ++ y) := by
  obtain ⟨u, b, c, v, hne, hx, hy⟩ := h
  refine ⟨utf8 front ++ u, b, c, v, hne, ?_, ?_⟩
  · rw [utf8_append, hx, List.append_assoc]
  · rw [utf8_append, hy, List.append_assoc]

theorem nameHash_ne (h : OneByteApart x y) : nameHash x ≠ nameHash y := by
  obtain ⟨u, b, c, v, hne, hx, hy⟩ := h
  intro hsame
  rw [nameHash_eq_ofBytes, nameHash_eq_ofBytes, hx, hy, NameHash.ofBytes_replace] at hsame
  exact hne hsame

end OneByteApart

theorem Source.exists_front (path : List String) :
    ∃ front, ∀ name, (qualifiedBy path name).qualified = front ++ name := by
  rcases List.eq_nil_or_concat' path with rfl | ⟨path, outer, rfl⟩
  · refine ⟨"", fun name => ?_⟩
    rw [qualifiedBy, List.nil_append, String.intercalate_singleton, String.empty_append]
  · exact ⟨(qualifiedBy path outer).qualified ++ ".", qualifiedBy_snoc path outer⟩

theorem OneByteApart.qualify {x y : String} {scopes scopes' : Scopes} (h : OneByteApart x y)
    (hpath : scopes.path = scopes'.path) :
    OneByteApart (scopes.qualify x).qualified (scopes'.qualify y).qualified := by
  obtain ⟨front, hfront⟩ := Source.exists_front scopes'.path
  rw [Scopes.qualify_eq, Scopes.qualify_eq, hpath, hfront, hfront]
  exact h.append_left front

namespace Assembly

variable {hasher : String → UInt64} {text : List Char} {first second : String} {span : Span}

theorem hash_eq_of_collision
    (h : assembleWith hasher text = .error ⟨.hashCollision first second, span⟩) :
    first ≠ second ∧ hasher first = hasher second := by
  rcases assembleWith_error h with hread | ⟨located, -, hofEntries⟩
  · obtain ⟨before, items, rest, -, -, hrefuses⟩ := hread
    cases hrefuses
  · cases itemsRefused_of_ofEntries hofEntries with
    | clash hitems hclash =>
        cases hclash with
        | name hname hfirst hhash hne => exact ⟨hne, hhash⟩

end Assembly

/-- Names that differ in one byte have different hashes, whatever is around the byte; and two hashes
are the same behind a common ending exactly if they are without it. So no unit is refused because
two variables of one scope collide whose names are one byte apart. -/
theorem one_byte_never_collides :
    (∀ (u v : List UInt8) (b c : UInt8), b ≠ c →
      NameHash.ofBytes (u ++ b :: v) ≠ NameHash.ofBytes (u ++ c :: v)) ∧
    (∀ x y s : List UInt8,
      NameHash.ofBytes (x ++ s) = NameHash.ofBytes (y ++ s) ↔
        NameHash.ofBytes x = NameHash.ofBytes y) ∧
    ∀ (scopes scopes' : Scopes) (x y : String), scopes.path = scopes'.path → OneByteApart x y →
      ∀ (text : List Char) (span : Span), Assembly.assemble text ≠ .error
        ⟨.hashCollision (scopes.qualify x).qualified (scopes'.qualify y).qualified, span⟩ := by
  refine ⟨fun u v b c hne hsame => hne ((NameHash.ofBytes_replace u v).1 hsame),
    NameHash.ofBytes_append_inj, fun scopes scopes' x y hpath h text span hrefused => ?_⟩
  have hcollision := (Assembly.hash_eq_of_collision hrefused).2
  exact (h.qualify hpath).nameHash_ne hcollision

/-- The scopes inside a function of the top level. -/
def insideF : Scopes := ⟨.empty, [⟨⟨"f", "f"⟩, .empty⟩], ["f"]⟩

theorem numbered_names_never_collide : OneByteApart "x1" "x2" ∧
    NameHash.ofBytes (utf8 "x1") ≠ NameHash.ofBytes (utf8 "x2") ∧
    ∀ (text : List Char) (span : Span),
      Assembly.assemble text ≠ .error ⟨.hashCollision "f.x1" "f.x2", span⟩ := by
  have hapart : OneByteApart "x1" "x2" := ⟨utf8 "x", 49, 50, [], by decide, rfl, rfl⟩
  obtain ⟨hbytes, -, hunits⟩ := one_byte_never_collides
  exact ⟨hapart, hbytes (utf8 "x") [] 49 50 (by decide),
    hunits insideF (insideF.bind "x1").2 "x1" "x2" rfl hapart⟩

end StackCalc
