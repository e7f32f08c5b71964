import Mnemonic.SyntaxError

set_option autoImplicit false

/-!
# The cursor

A cursor walks over a buffer byte by byte and keeps count of lines and columns. It starts *before*
the first byte, at index `-1`, and every advance moves it on by one, past the end too if asked to.
Who advances says which byte is being left: leaving a line feed starts a new line.

An advance may be told to fail at the end of the buffer. It then reports the place held before it,
and has moved the cursor all the same; that is why advances run in a state monad whose errors keep
the state.

Main statements: passing over a line feed starts a line (`nextChar_lineFeed`), passing over any other
character moves on by its bytes (`nextChar_of_ne`), and a motion that may not fail is the plain one
(`pass_false`).
-/

namespace Mnemonic

/-- A place in a buffer of known length, with its line and column. -/
structure Cursor where
  /-- offset of the byte under the cursor, `-1` before the first -/
  index : Int
  /-- length of the buffer -/
  length : Nat
  line : Nat
  /-- column of the byte under the cursor, `-1` before the first of a line -/
  column : Int
  deriving DecidableEq, Repr, Inhabited

namespace Cursor

/-- The cursor before the first byte of a buffer. -/
def start (length : Nat) : Cursor := ⟨-1, length, 1, -1⟩

/-- The index as an offset, zero before the first byte. -/
def offset (c : Cursor) : Nat := c.index.toNat

/-- Line and column; the column is zero before the first byte. -/
def position (c : Cursor) : Position := ⟨c.line, c.column.toNat⟩

/-- The byte under the cursor is one of the buffer's. -/
def inBounds (c : Cursor) : Bool := c.offset < c.length

/-- The code of the line feed. -/
def lineFeed : UInt8 := 10

/-- The cursor one byte further on, after leaving the given byte. -/
def next (c : Cursor) (leaving : Option UInt8) : Cursor :=
  if leaving = some lineFeed then
    { c with index := c.index + 1, line := c.line + 1, column := 0 }
  else
    { c with index := c.index + 1, column := c.column + 1 }

/-- Moves one byte on and tells whether the cursor is still in the buffer. Outside of it an advance
that has to fail does so with the place held before, and stays moved. -/
def advance (leaving : Option UInt8) (failAtEnd : Bool) : EStateM SyntaxError Cursor Bool :=
  fun c =>
    let moved := c.next leaving
    if failAtEnd && !moved.inBounds then
      .error ⟨.unexpectedEnd, c.position⟩ moved
    else
      .ok moved.inBounds moved

/-- Advances over the given bytes, up to the first failure. -/
def advanceOver (failAtEnd : Bool) : List UInt8 → EStateM SyntaxError Cursor Unit
  | [] => pure ()
  | b :: bs => do
      let _ ← advance (some b) failAtEnd
      advanceOver failAtEnd bs

/-- Advances over one character, byte by byte. -/
def pass (failAtEnd : Bool) (c : Char) : EStateM SyntaxError Cursor Unit :=
  advanceOver failAtEnd (String.utf8EncodeChar c)

/-- The cursor after the bytes of a character, whether or not it is still in the buffer. -/
def nextChar (c : Cursor) (leaving : Char) : Cursor :=
  (String.utf8EncodeChar leaving).foldl (fun c b => c.next (some b)) c

theorem nextChar_lineFeed (c : Cursor) :
    c.nextChar '\n' = { c with index := c.index + 1, line := c.line + 1, column := 0 } := rfl

/-- Only a line feed has the byte of a line feed in it. -/
theorem lineFeed_notMem_utf8EncodeChar {ch : Char} (h : ch ≠ '\n') :
    lineFeed ∉ String.utf8EncodeChar ch := by
  have hval : ch.val.toNat ≠ 10 := fun hv =>
    h (Char.ext (UInt32.toNat.inj (hv.trans (by decide))))
  simp only [String.utf8EncodeChar, lineFeed]
  split
  · rename_i hle
    simp only [List.mem_singleton, ← UInt8.toNat_inj, UInt8.toNat_ofNat', UInt8.reduceToNat]
    omega
  · split
    · simp only [List.mem_cons, List.not_mem_nil, or_false, ← UInt8.toNat_inj,
        UInt8.toNat_ofNat', UInt8.reduceToNat]
      omega
    · split <;>
      · simp only [List.mem_cons, List.not_mem_nil, or_false, ← UInt8.toNat_inj,
          UInt8.toNat_ofNat', UInt8.reduceToNat]
        omega

theorem foldl_next_of_notMem {bytes : List UInt8} (h : lineFeed ∉ bytes) (c : Cursor) :
    bytes.foldl (fun c b => c.next (some b)) c =
      { c with index := c.index + bytes.length, column := c.column + bytes.length } := by
  induction bytes generalizing c with
  | nil => simp
  | cons b bs ih =>
      have hne : b ≠ lineFeed := fun he => h (he ▸ List.mem_cons_self)
      have hbs : lineFeed ∉ bs := fun hb => h (List.mem_cons_of_mem b hb)
      rw [List.foldl_cons, ih hbs]
      simp only [next, Option.some.injEq, hne, if_false, List.length_cons, Cursor.mk.injEq,
        true_and]
      omega

theorem nextChar_of_ne {ch : Char} (h : ch ≠ '\n') (c : Cursor) :
    c.nextChar ch =
      { c with index := c.index + ch.utf8Size, column := c.column + ch.utf8Size } := by
  rw [nextChar, foldl_next_of_notMem (lineFeed_notMem_utf8EncodeChar h),
    String.length_utf8EncodeChar]

theorem advanceOver_false (bytes : List UInt8) (c : Cursor) :
    advanceOver false bytes c = .ok () (bytes.foldl (fun c b => c.next (some b)) c) := by
  induction bytes generalizing c with
  | nil => rfl
  | cons b bs ih => exact ih _

theorem pass_false (ch : Char) (c : Cursor) : pass false ch c = .ok () (c.nextChar ch) :=
  advanceOver_false _ _

end Cursor

end Mnemonic
