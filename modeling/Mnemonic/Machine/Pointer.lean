import Mnemonic.Value

set_option autoImplicit false

/-!
# Values that can point to instructions

The instruction pointer lives in a register like any other, so the values of a machine have to be able
to hold it. An instruction pointer is a signed integer of 64 bits. A kind of value that cannot hold a
given one holds zero instead; a value that is no such integer is no instruction pointer.

Main statements: a word that is an instruction pointer is the value of that pointer
(`Word.ofPointer_of_pointer?`), and a pointer within the range of a word survives the way there and
back (`Word.pointer?_ofPointer`).
-/

namespace Mnemonic

/-- The kinds of value that an instruction pointer can be kept in. -/
class HoldsPointer (V : Type) where
  /-- the value for an instruction pointer -/
  ofPointer : Int64Word → V
  /-- the instruction pointer that a value is, if it is one -/
  pointer? : V → Option Int64Word

open HoldsPointer

/-- A word holds the pointers in its range, and zero for the others. -/
instance Word.instHoldsPointer (r : WordRange) : HoldsPointer (Word r) where
  ofPointer ip := .ofIntOrZero ip.val
  pointer? w := Word.ofInt? w.val

/-- A value holds every pointer, as an integer. -/
instance Value.instHoldsPointer : HoldsPointer Value where
  ofPointer ip := .integer ip
  pointer?
    | .integer n => some n
    | _ => none

namespace Word

variable {r : WordRange}

theorem pointer?_eq_some_iff {w : Word r} {ip : Int64Word} : pointer? w = some ip ↔ ip.val = w.val :=
  ofInt?_eq_some_iff

theorem ofPointer_of_pointer? {w : Word r} {ip : Int64Word} (h : pointer? w = some ip) :
    ofPointer ip = w := by
  rw [pointer?_eq_some_iff] at h
  simp [ofPointer, h]

theorem pointer?_ofPointer {ip : Int64Word} (hlo : r.lo ≤ ip.val) (hhi : ip.val ≤ r.hi) :
    pointer? (ofPointer ip : Word r) = some ip := by
  have h : (ofInt? ip.val : Option (Word r)) = some ⟨ip.val, hlo, hhi⟩ := by simp [ofInt?, hlo, hhi]
  simp [pointer?, ofPointer, ofIntOrZero, h]

end Word

end Mnemonic
