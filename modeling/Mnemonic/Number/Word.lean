set_option autoImplicit false

/-!
# Words: integers of a fixed range

A register holds integers of one of several ranges. A `Word` is an integer together with the proofs
that it is in its range, so no arithmetic on it can wrap: who computes with words computes with
integers and then asks for the word of the result, which exists or not.

Main statement: an integer has a word exactly when it is in the range (`ofInt?_eq_some_iff`).
-/

namespace Mnemonic

/-- The bounds of a kind of integer; zero is always one of them. -/
structure WordRange where
  lo : Int
  hi : Int
  lo_nonpos : lo ≤ 0
  hi_nonneg : 0 ≤ hi
  deriving DecidableEq, Repr

namespace WordRange

/-- Signed integers of 32 bits. -/
def int32 : WordRange := ⟨-2147483648, 2147483647, by decide, by decide⟩

/-- Signed integers of 64 bits. -/
def int64 : WordRange := ⟨-9223372036854775808, 9223372036854775807, by decide, by decide⟩

/-- Unsigned integers of 32 bits. -/
def uint32 : WordRange := ⟨0, 4294967295, by decide, by decide⟩

/-- Unsigned integers of 64 bits. -/
def uint64 : WordRange := ⟨0, 18446744073709551615, by decide, by decide⟩

/-- The range holds negative integers. -/
def isSigned (r : WordRange) : Bool := r.lo < 0

end WordRange

/-- An integer of a range. -/
@[ext] structure Word (r : WordRange) where
  val : Int
  lo_le : r.lo ≤ val
  le_hi : val ≤ r.hi
  deriving DecidableEq, Repr

namespace Word

variable {r : WordRange}

/-- The word of an integer, if it is in the range. -/
def ofInt? (n : Int) : Option (Word r) :=
  if h : r.lo ≤ n ∧ n ≤ r.hi then some ⟨n, h.1, h.2⟩ else none

/-- Zero, which every range holds. -/
def zero : Word r := ⟨0, r.lo_nonpos, r.hi_nonneg⟩

instance : Inhabited (Word r) := ⟨zero⟩

/-- The word of an integer, zero for one out of the range. -/
def ofIntOrZero (n : Int) : Word r := (ofInt? n).getD zero

theorem ofInt?_eq_some_iff {n : Int} {w : Word r} : ofInt? n = some w ↔ w.val = n := by
  unfold ofInt?
  constructor
  · intro h
    split at h
    · simp only [Option.some.injEq] at h
      rw [← h]
    · simp at h
  · rintro rfl
    simp [w.lo_le, w.le_hi]

theorem ofInt?_eq_none_iff {n : Int} : (ofInt? n : Option (Word r)) = none ↔ n < r.lo ∨ r.hi < n := by
  simp only [ofInt?, dite_eq_right_iff, reduceCtorEq, imp_false]
  omega

@[simp] theorem ofInt?_val (w : Word r) : ofInt? w.val = some w := ofInt?_eq_some_iff.2 rfl

@[simp] theorem ofIntOrZero_val (w : Word r) : ofIntOrZero w.val = w := by simp [ofIntOrZero]

@[simp] theorem val_zero : (zero : Word r).val = 0 := rfl

end Word

/-- Signed 64-bit integers, which instruction pointers and integer operands are. -/
abbrev Int64Word := Word .int64

end Mnemonic
