set_option autoImplicit false

/-!
# Text: separators and blanks

Two notions of white space meet in an assembly text. Words are cut apart by the three *separators*
space, line feed and carriage return; a tab is part of a word. The operands on the rest of an
instruction's line are cut apart by *blanks*, the characters with the Unicode property White_Space.

Main statement: every separator is a blank (`isBlank_of_isSeparator`), so no operand holds one.
-/

namespace Mnemonic.Text

/-- The characters between words: space, line feed, carriage return. -/
def isSeparator (c : Char) : Bool :=
  c == ' ' || c == '\n' || c == '\r'

/-- The ranges of code points with the Unicode property White_Space, both ends included. -/
def blankRanges : List (Nat × Nat) :=
  [(0x9, 0xd), (0x20, 0x20), (0x85, 0x85), (0xa0, 0xa0), (0x1680, 0x1680), (0x2000, 0x200a),
    (0x2028, 0x2029), (0x202f, 0x202f), (0x205f, 0x205f), (0x3000, 0x3000)]

/-- The character has the Unicode property White_Space. -/
def isBlank (c : Char) : Bool :=
  blankRanges.any fun (lo, hi) => lo ≤ c.toNat && c.toNat ≤ hi

theorem isBlank_of_isSeparator {c : Char} (h : isSeparator c = true) : isBlank c = true := by
  simp only [isSeparator, Bool.or_eq_true, beq_iff_eq] at h
  rcases h with (rfl | rfl) | rfl <;> rfl

example : (blankRanges.map fun (lo, hi) => hi + 1 - lo).sum = 25 := rfl

end Mnemonic.Text
