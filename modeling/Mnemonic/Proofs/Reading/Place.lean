import Mnemonic.Cursor
import Mnemonic.Text.Bytes

set_option autoImplicit false

/-!
# Places in a text

The cursor keeps its line and its column up to date byte by byte. Here both are said outright: the
place behind some bytes of a text is one line further down for each line feed among them, and as many
columns to the right as there are bytes behind the last of these. A cursor that has passed over some
bytes of a text is the *cursor behind* them, whatever motions brought it there.

Main statements: passing over a byte, or over a character, leads from one cursor behind some bytes to
the next (`next_behind`, `nextChar_behind`), and an advance that has to fail at the end does so exactly
when it comes to the last byte (`advanceOver_true_behind`, `advanceOver_true_behind_end`).
-/

namespace Mnemonic

namespace Text

/-- The bytes of a text in UTF-8. -/
def encode (t : List Char) : List UInt8 := t.flatMap String.utf8EncodeChar

@[simp] theorem encode_nil : encode [] = [] := rfl

@[simp] theorem encode_cons (c : Char) (t : List Char) :
    encode (c :: t) = String.utf8EncodeChar c ++ encode t := rfl

@[simp] theorem encode_append (a b : List Char) : encode (a ++ b) = encode a ++ encode b := by
  simp [encode]

@[simp] theorem length_encode (t : List Char) : (encode t).length = byteLength t := by
  induction t with
  | nil => rfl
  | cons c t ih =>
      rw [encode_cons, List.length_append, ih, String.length_utf8EncodeChar, byteLength_cons]

theorem encode_eq_nil_iff (t : List Char) : encode t = [] ↔ t = [] := by
  rw [← List.length_eq_zero_iff, length_encode, byteLength_eq_zero_iff]

/-- A text has as many bytes of a line feed as it has line feeds. -/
theorem count_encode (t : List Char) : (encode t).count Cursor.lineFeed = t.count '\n' := by
  induction t with
  | nil => rfl
  | cons c t ih =>
      rw [encode_cons, List.count_append, ih]
      by_cases hc : c = '\n'
      · subst hc
        rw [List.count_cons_self, Nat.add_comm]
        rfl
      · rw [List.count_eq_zero_of_not_mem (Cursor.lineFeed_notMem_utf8EncodeChar hc),
          List.count_cons_of_ne hc, Nat.zero_add]

theorem lineFeed_notMem_encode {t : List Char} (h : '\n' ∉ t) : Cursor.lineFeed ∉ encode t := by
  rw [← List.count_eq_zero, count_encode, List.count_eq_zero]
  exact h

end Text

namespace Position

/-- The place behind some bytes of a text: lines are counted by their line feeds, columns by the
bytes behind the last of them. -/
def behind (bytes : List UInt8) : Position :=
  ⟨bytes.count Cursor.lineFeed + 1, (bytes.reverse.takeWhile (· != Cursor.lineFeed)).length⟩

theorem behind_append_lineFeed (bytes : List UInt8) :
    behind (bytes ++ [Cursor.lineFeed]) = ⟨(behind bytes).line + 1, 0⟩ := by
  simp [behind]

theorem behind_append_of_ne {b : UInt8} (hb : b ≠ Cursor.lineFeed) (bytes : List UInt8) :
    behind (bytes ++ [b]) = ⟨(behind bytes).line, (behind bytes).column + 1⟩ := by
  simp [behind, hb]

/-- Bytes without a line feed lead to the right. -/
theorem behind_append_of_notMem {more : List UInt8} (h : Cursor.lineFeed ∉ more)
    (bytes : List UInt8) :
    behind (bytes ++ more) = ⟨(behind bytes).line, (behind bytes).column + more.length⟩ := by
  have hall : ∀ b ∈ more.reverse, (b != Cursor.lineFeed) = true := by
    intro b hb
    rw [bne_iff_ne]
    rintro rfl
    exact h (List.mem_reverse.1 hb)
  simp only [behind, List.count_append, List.count_eq_zero_of_not_mem h, Nat.add_zero,
    List.reverse_append, List.takeWhile_append_of_pos hall, List.length_append,
    List.length_reverse, Nat.add_comm]

/-- Behind a line feed the columns start afresh. -/
theorem behind_lineFeed_append (bytes more : List UInt8) :
    behind (bytes ++ Cursor.lineFeed :: more) =
      ⟨(bytes ++ [Cursor.lineFeed]).count Cursor.lineFeed + (behind more).line,
        (behind more).column⟩ := by
  have hcolumn : ((bytes ++ Cursor.lineFeed :: more).reverse.takeWhile (· != Cursor.lineFeed)) =
      more.reverse.takeWhile (· != Cursor.lineFeed) := by
    rw [List.reverse_append, List.reverse_cons, List.append_assoc, List.takeWhile_append]
    split
    · rename_i hall
      simp [(List.takeWhile_prefix _).eq_of_length hall]
    · rfl
  simp only [behind, hcolumn, List.count_append, List.count_cons_self, List.count_nil,
    mk.injEq, and_true]
  omega

end Position

namespace Cursor

/-- The cursor of a text of the given length, behind some bytes of the text. -/
def behind (length : Nat) (bytes : List UInt8) : Cursor :=
  ⟨bytes.length, length, (Position.behind bytes).line, (Position.behind bytes).column⟩

@[simp] theorem offset_behind (length : Nat) (bytes : List UInt8) :
    (behind length bytes).offset = bytes.length := by
  simp [offset, behind]

@[simp] theorem position_behind (length : Nat) (bytes : List UInt8) :
    (behind length bytes).position = Position.behind bytes := by
  simp [position, behind]

theorem next_start (length : Nat) : (start length).next none = behind length [] := by
  simp [next, start, behind, Position.behind]

theorem next_behind (length : Nat) (bytes : List UInt8) (b : UInt8) :
    (behind length bytes).next (some b) = behind length (bytes ++ [b]) := by
  unfold next
  by_cases hb : b = lineFeed
  · subst hb
    simp [behind, Position.behind_append_lineFeed]
  · simp [behind, Position.behind_append_of_ne hb, hb]

theorem foldl_next_behind (length : Nat) (bytes more : List UInt8) :
    more.foldl (fun c b => c.next (some b)) (behind length bytes) = behind length (bytes ++ more) := by
  induction more generalizing bytes with
  | nil => simp
  | cons b more ih => rw [List.foldl_cons, next_behind, ih, List.append_assoc, List.singleton_append]

theorem nextChar_behind (length : Nat) (bytes : List UInt8) (c : Char) :
    (behind length bytes).nextChar c = behind length (bytes ++ String.utf8EncodeChar c) :=
  foldl_next_behind length bytes _

theorem advance_true_behind {length : Nat} {bytes : List UInt8} (b : UInt8)
    (h : bytes.length + 1 < length) :
    advance (some b) true (behind length bytes) = .ok true (behind length (bytes ++ [b])) := by
  have hin : (behind length (bytes ++ [b])).inBounds = true := by
    simpa [inBounds, behind, offset] using h
  simp [advance, next_behind, hin]

theorem advance_true_behind_end {length : Nat} {bytes : List UInt8} (b : UInt8)
    (h : bytes.length + 1 = length) :
    advance (some b) true (behind length bytes) =
      .error ⟨.unexpectedEnd, Position.behind bytes⟩ (behind length (bytes ++ [b])) := by
  have hin : (behind length (bytes ++ [b])).inBounds = false := by
    simp only [inBounds, offset_behind, List.length_append, List.length_singleton,
      decide_eq_false_iff_not]
    have : (behind length (bytes ++ [b])).length = length := rfl
    omega
  simp [advance, next_behind, hin]

/-- Before the end an advance that may fail does not. -/
theorem advanceOver_true_behind {length : Nat} {bytes more : List UInt8}
    (h : bytes.length + more.length < length) :
    advanceOver true more (behind length bytes) = .ok () (behind length (bytes ++ more)) := by
  induction more generalizing bytes with
  | nil => simp [advanceOver, pure, EStateM.pure]
  | cons b more ih =>
      rw [List.length_cons] at h
      have hrest : (bytes ++ [b]).length + more.length < length := by
        rw [List.length_append, List.length_singleton]
        omega
      simp only [advanceOver, Bind.bind, EStateM.bind]
      rw [advance_true_behind b (by omega)]
      simpa using ih hrest

/-- Over the last byte an advance that may fail does so, at the place of that byte. -/
theorem advanceOver_true_behind_end {length : Nat} {bytes more : List UInt8} (hmore : more ≠ [])
    (h : bytes.length + more.length = length) :
    advanceOver true more (behind length bytes) =
      .error ⟨.unexpectedEnd, Position.behind (bytes ++ more.dropLast)⟩
        (behind length (bytes ++ more)) := by
  induction more generalizing bytes with
  | nil => exact absurd rfl hmore
  | cons b more ih =>
      rw [List.length_cons] at h
      simp only [advanceOver, Bind.bind, EStateM.bind]
      cases more with
      | nil =>
          rw [advance_true_behind_end b (by simpa using h)]
          simp
      | cons b' more =>
          rw [List.length_cons] at h
          have hrest : (bytes ++ [b]).length + (b' :: more).length = length := by
            rw [List.length_append, List.length_singleton, List.length_cons]
            omega
          rw [advance_true_behind b (by omega)]
          simpa using ih (List.cons_ne_nil b' more) hrest

end Cursor

end Mnemonic
