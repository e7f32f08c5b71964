import Mathlib.Data.Nat.Find
import Mathlib.Data.List.Basic
import Mathlib.Data.List.Induction
import Mnemonic.Proofs.Reading.Place

set_option autoImplicit false

/-!
# Places of offsets

A place in a text can be told from its offset and the bytes of the text, without a cursor: its line is
one more than the number of line feeds in front of it, and its column is its distance from the start of
its line, which is the offset behind the last line feed in front of it.

Main statements: the place of the offset behind some bytes is the place behind these bytes
(`ofOffset_append`), and the line of an offset ends where the next line feed or the end of the text
comes (`lineEnd_encode`).
-/

namespace Mnemonic

namespace Text

/-- A line feed stands directly in front of the offset. -/
def BehindLineFeed (bytes : List UInt8) (offset : Nat) : Prop :=
  0 < offset ∧ bytes[offset - 1]? = some Cursor.lineFeed

instance (bytes : List UInt8) : DecidablePred (BehindLineFeed bytes) :=
  fun _ => inferInstanceAs (Decidable (_ ∧ _))

/-- Where the line of an offset starts: behind the last line feed in front of the offset, or at the
start of the text if there is none. -/
def lineStart (bytes : List UInt8) (offset : Nat) : Nat :=
  Nat.findGreatest (BehindLineFeed bytes) offset

/-- Where the line of an offset ends: at the first line feed from the offset on, or at the end of the
text if there is none. -/
def lineEnd (bytes : List UInt8) (offset : Nat) : Nat :=
  offset + (bytes.drop offset).idxOf Cursor.lineFeed

theorem lineStart_le (bytes : List UInt8) (offset : Nat) : lineStart bytes offset ≤ offset :=
  Nat.findGreatest_le offset

theorem lineEnd_append {front line rest : List UInt8} (hline : Cursor.lineFeed ∉ line)
    (hrest : ∀ b ∈ rest.head?, b = Cursor.lineFeed) :
    lineEnd (front ++ line ++ rest) front.length = front.length + line.length := by
  have hend : rest.idxOf Cursor.lineFeed = 0 := by
    cases rest with
    | nil => rfl
    | cons b rest =>
        obtain rfl : b = Cursor.lineFeed := hrest b rfl
        exact List.idxOf_cons_self
  rw [lineEnd, List.append_assoc, List.drop_left, List.idxOf_append_of_notMem hline, hend,
    Nat.add_zero]

/-- A line of a text ends where its next line feed comes, or the end of the text. -/
theorem lineEnd_encode {front line rest : List Char} (hline : '\n' ∉ line)
    (hrest : ∀ c ∈ rest.head?, c = '\n') :
    lineEnd (encode (front ++ line ++ rest)) (byteLength front) = byteLength (front ++ line) := by
  have hfeed : ∀ b ∈ (encode rest).head?, b = Cursor.lineFeed := by
    cases rest with
    | nil => simp
    | cons c rest =>
        obtain rfl : c = '\n' := hrest c rfl
        intro b hb
        exact (Option.some.inj hb).symm
  have hend : lineEnd (encode front ++ encode line ++ encode rest) (encode front).length =
      (encode front).length + (encode line).length :=
    lineEnd_append (lineFeed_notMem_encode hline) hfeed
  rwa [← encode_append, ← encode_append, length_encode, length_encode, ← byteLength_append] at hend

end Text

namespace Position

open Text

/-- The place of an offset: lines are counted from one by the line feeds in front of it, columns from
the start of its line. -/
def ofOffset (bytes : List UInt8) (offset : Nat) : Position :=
  ⟨(bytes.take offset).count Cursor.lineFeed + 1, offset - lineStart bytes offset⟩

theorem ofOffset_zero (bytes : List UInt8) : ofOffset bytes 0 = ⟨1, 0⟩ := by
  rw [ofOffset, Nat.zero_sub]
  rfl

/-- The place of the next offset is on a new line behind a line feed, else one column to the right. -/
theorem ofOffset_succ (bytes : List UInt8) (offset : Nat) :
    ofOffset bytes (offset + 1) =
      if bytes[offset]? = some Cursor.lineFeed then ⟨(ofOffset bytes offset).line + 1, 0⟩
      else ⟨(ofOffset bytes offset).line, (ofOffset bytes offset).column + 1⟩ := by
  have hle := lineStart_le bytes offset
  have hbehind : BehindLineFeed bytes (offset + 1) ↔ bytes[offset]? = some Cursor.lineFeed := by
    rw [BehindLineFeed, Nat.add_sub_cancel]
    exact and_iff_right (Nat.succ_pos offset)
  have hstart : lineStart bytes (offset + 1) =
      if bytes[offset]? = some Cursor.lineFeed then offset + 1 else lineStart bytes offset := by
    simp only [lineStart, Nat.findGreatest_succ, hbehind]
  have htake : bytes.take (offset + 1) = bytes.take offset ++ bytes[offset]?.toList :=
    List.take_add_one
  rw [ofOffset, hstart, htake, List.count_append]
  split
  · rename_i hfeed
    rw [hfeed, Nat.sub_self]
    rfl
  · rename_i hfeed
    have hnone : bytes[offset]?.toList.count Cursor.lineFeed = 0 := by
      rw [List.count_eq_zero, Option.mem_toList]
      exact hfeed
    rw [hnone, Nat.add_zero, Nat.sub_add_comm hle]
    rfl

/-- The place of the offset behind some bytes is the place behind these bytes. -/
theorem ofOffset_append (front rest : List UInt8) :
    ofOffset (front ++ rest) front.length = behind front := by
  induction front using List.reverseRecOn generalizing rest with
  | nil => exact ofOffset_zero rest
  | append_singleton front b ih =>
      have hlength : (front ++ [b]).length = front.length + 1 := by simp
      have hlast : (front ++ [b] ++ rest)[front.length]? = some b := by simp
      have hbefore : ofOffset (front ++ [b] ++ rest) front.length = behind front := by
        rw [List.append_assoc]
        exact ih ([b] ++ rest)
      rw [hlength, ofOffset_succ, hlast, hbefore]
      by_cases hb : b = Cursor.lineFeed
      · rw [hb, if_pos rfl, behind_append_lineFeed]
      · rw [if_neg fun h => hb (Option.some.inj h), behind_append_of_ne hb]

/-- The place behind a part of a text and some bytes of what follows it. -/
theorem ofOffset_take (front rest : List Char) {offset : Nat} (h : offset ≤ byteLength rest) :
    ofOffset (encode (front ++ rest)) (byteLength front + offset) =
      behind (encode front ++ (encode rest).take offset) := by
  have hlength : (encode front ++ (encode rest).take offset).length = byteLength front + offset := by
    rw [List.length_append, List.length_take, length_encode, length_encode, Nat.min_eq_left h]
  have hplace := ofOffset_append (encode front ++ (encode rest).take offset) ((encode rest).drop offset)
  rwa [hlength, List.append_assoc, List.take_append_drop, ← encode_append] at hplace

/-- The place behind a part of a text. -/
theorem ofOffset_encode (front rest : List Char) :
    ofOffset (encode (front ++ rest)) (byteLength front) = behind (encode front) := by
  rw [encode_append, ← length_encode, ofOffset_append]

end Position

end Mnemonic
