import Mnemonic.Proofs.Reading.Offsets

set_option autoImplicit false

/-!
# Calls to advance

Whoever advances a cursor says which byte is left and whether the end of the buffer is a failure. Nothing
ties what is said to the buffer, and a call that fails moves the cursor like any other; so where a cursor
is after some calls can be told by counting them. When the bytes are those of a buffer, the counts are
the line and the column of the offset that was reached, in the buffer or behind it.

Main statement: `after_start`.
-/

namespace Mnemonic.Cursor

/-- A call to advance: the byte that is left, and whether to fail at the end. -/
structure Call where
  leaving : Option UInt8
  failAtEnd : Bool
  deriving DecidableEq, Repr

namespace Call

/-- The byte that is left is a line feed. -/
def leavesLineFeed (call : Call) : Bool := call.leaving == some lineFeed

theorem leavesLineFeed_iff {call : Call} :
    call.leavesLineFeed = true ↔ call.leaving = some lineFeed :=
  beq_iff_eq

/-- The cursor behind a call, whether or not it failed. -/
def moved (call : Call) (c : Cursor) : Cursor :=
  match advance call.leaving call.failAtEnd c with
  | .ok _ c' => c'
  | .error _ c' => c'

theorem moved_eq_next (call : Call) (c : Cursor) : call.moved c = c.next call.leaving := by
  unfold moved advance
  dsimp only
  by_cases hfails : (call.failAtEnd && !(c.next call.leaving).inBounds) = true
  · rw [if_pos hfails]
  · rw [if_neg hfails]

end Call

/-- The cursor behind some calls. -/
def after (c : Cursor) (calls : List Call) : Cursor := calls.foldl (fun c call => call.moved c) c

theorem after_append_singleton (c : Cursor) (calls : List Call) (call : Call) :
    c.after (calls ++ [call]) = (c.after calls).next call.leaving := by
  rw [after, List.foldl_append, List.foldl_cons, List.foldl_nil, Call.moved_eq_next, after]

/-- How many calls were made after the last one that left a line feed, if there was one. -/
def sinceLineFeed? (calls : List Call) : Option Nat := calls.reverse.findIdx? Call.leavesLineFeed

theorem sinceLineFeed?_append_singleton (calls : List Call) (call : Call) :
    sinceLineFeed? (calls ++ [call]) =
      if call.leavesLineFeed then some 0 else (sinceLineFeed? calls).map (· + 1) := by
  rw [sinceLineFeed?, List.reverse_append, List.reverse_singleton, List.singleton_append,
    List.findIdx?_cons, sinceLineFeed?]

/-! ## Counting calls -/

theorem index_next (c : Cursor) (leaving : Option UInt8) : (c.next leaving).index = c.index + 1 := by
  rw [next]
  split <;> rfl

theorem length_next (c : Cursor) (leaving : Option UInt8) : (c.next leaving).length = c.length := by
  rw [next]
  split <;> rfl

section Counting

variable (length : Nat) (calls : List Call)

theorem length_after_start : ((start length).after calls).length = length := by
  induction calls using List.reverseRecOn with
  | nil => rfl
  | append_singleton calls call ih => rw [after_append_singleton, length_next, ih]

theorem index_after_start : ((start length).after calls).index = calls.length - 1 := by
  induction calls using List.reverseRecOn with
  | nil => rfl
  | append_singleton calls call ih =>
      rw [after_append_singleton, index_next, ih, List.length_append, List.length_singleton]
      omega

theorem line_after_start :
    ((start length).after calls).line = calls.countP Call.leavesLineFeed + 1 := by
  induction calls using List.reverseRecOn with
  | nil => rfl
  | append_singleton calls call ih =>
      rw [after_append_singleton, List.countP_append, List.countP_singleton, next]
      by_cases hfeed : call.leaving = some lineFeed
      · rw [if_pos hfeed, if_pos (Call.leavesLineFeed_iff.2 hfeed), Nat.add_right_comm, ← ih]
      · rw [if_neg hfeed, if_neg (mt Call.leavesLineFeed_iff.1 hfeed), Nat.add_zero, ← ih]

/-- The column counts the calls since the last line feed; before the first one it counts all calls, from
`-1`. -/
theorem column_after_start :
    ((start length).after calls).column =
      (sinceLineFeed? calls).elim (calls.length - 1 : Int) Nat.cast := by
  induction calls using List.reverseRecOn with
  | nil => rfl
  | append_singleton calls call ih =>
      rw [after_append_singleton, sinceLineFeed?_append_singleton, next]
      by_cases hfeed : call.leaving = some lineFeed
      · rw [if_pos hfeed, if_pos (Call.leavesLineFeed_iff.2 hfeed)]
        rfl
      · rw [if_neg hfeed, if_neg (mt Call.leavesLineFeed_iff.1 hfeed), ih]
        cases sinceLineFeed? calls with
        | none =>
            simp only [Option.elim_none, Option.map_none, List.length_append, List.length_singleton]
            omega
        | some n => rfl

end Counting

/-- Only before the first call the column can be `-1`. -/
theorem column_after_start_nonneg (length : Nat) {calls : List Call} (h : calls ≠ []) :
    0 ≤ ((start length).after calls).column := by
  have hpos := List.length_pos_of_ne_nil h
  rw [column_after_start]
  cases sinceLineFeed? calls with
  | none =>
      rw [Option.elim_none]
      omega
  | some n => exact Int.natCast_nonneg n

theorem column_position_after_start (length : Nat) (calls : List Call) :
    ((start length).after calls).position.column =
      (sinceLineFeed? calls).getD (calls.length - 1) := by
  have hcolumn := column_after_start length calls
  rw [position, hcolumn]
  cases sinceLineFeed? calls with
  | none =>
      dsimp only [Option.elim_none, Option.getD_none]
      omega
  | some n => rfl

/-! ## Calls that say the bytes of a buffer -/

/-- The byte of a buffer under the cursor; there is none before the first byte and behind the last. -/
def byte? (c : Cursor) (bytes : List UInt8) : Option UInt8 :=
  if c.index < 0 then none else bytes[c.index.toNat]?

/-- Each call says the byte of the buffer that is under the cursor then. -/
def Reads (bytes : List UInt8) : Cursor → List Call → Prop
  | _, [] => True
  | c, call :: calls => call.leaving = c.byte? bytes ∧ Reads bytes (call.moved c) calls

theorem reads_append_singleton {bytes : List UInt8} {c : Cursor} {calls : List Call} {call : Call} :
    Reads bytes c (calls ++ [call]) ↔
      Reads bytes c calls ∧ call.leaving = (c.after calls).byte? bytes := by
  induction calls generalizing c with
  | nil => simp [Reads, after]
  | cons first calls ih =>
      rw [List.cons_append, Reads, Reads, ih, and_assoc]
      rfl

theorem position_next {c : Cursor} (h : 0 ≤ c.column) (leaving : Option UInt8) :
    (c.next leaving).position =
      if leaving = some lineFeed then ⟨c.position.line + 1, 0⟩
      else ⟨c.position.line, c.position.column + 1⟩ := by
  rw [next]
  split
  · rfl
  · have hcolumn : (c.column + 1).toNat = c.column.toNat + 1 := by omega
    rw [position, hcolumn]
    rfl

/-- With the bytes of a buffer, the cursor keeps the place of its offset. -/
theorem position_after_start {bytes : List UInt8} {length : Nat} {calls : List Call}
    (h : Reads bytes (start length) calls) :
    ((start length).after calls).position =
      .ofOffset bytes ((start length).after calls).offset := by
  induction calls using List.reverseRecOn with
  | nil => exact (Position.ofOffset_zero bytes).symm
  | append_singleton calls call ih =>
      obtain ⟨hbefore, hleaving⟩ := reads_append_singleton.1 h
      have hindex := index_after_start length calls
      cases calls with
      | nil =>
          -- the first call leads to the first byte, and leaves none
          have hnone : call.leaving = none := hleaving
          rw [after_append_singleton, hnone]
          exact (Position.ofOffset_zero bytes).symm
      | cons first calls =>
          have hcolumn := column_after_start_nonneg length (List.cons_ne_nil first calls)
          have hbyte : call.leaving = bytes[((start length).after (first :: calls)).offset]? := by
            rw [hleaving, byte?, if_neg (by rw [hindex, List.length_cons]; omega)]
            rfl
          have hoffset : ((start length).after (first :: calls ++ [call])).offset =
              ((start length).after (first :: calls)).offset + 1 := by
            rw [offset, offset, index_after_start, hindex, List.length_append, List.length_singleton,
              List.length_cons]
            omega
          rw [hoffset, Position.ofOffset_succ, ← ih hbefore, ← hbyte, after_append_singleton,
            position_next hcolumn]

/-! ## The closed form -/

/-- Where a cursor is after any calls, told by counting them: the index by all calls, the line by those
that left a line feed, and the column by those since. A call that is told to fail does so when it leads
past the last byte; it reports the place held before it, and the cursor is moved all the same. When the
calls say the bytes of the buffer, line and column are those of the offset: the line feeds in front of it
are counted, and the bytes between the last of them and the offset. -/
theorem after_start (length : Nat) (calls : List Call) :
    let c := (start length).after calls
    c.index = calls.length - 1 ∧ c.position.line = calls.countP Call.leavesLineFeed + 1 ∧
      c.position.column = (sinceLineFeed? calls).getD (calls.length - 1) ∧
      (∀ call : Call, let c' := (start length).after (calls ++ [call])
        advance call.leaving call.failAtEnd c =
          if call.failAtEnd = true ∧ ¬c'.index < length then .error ⟨.unexpectedEnd, c.position⟩ c'
          else .ok (decide (c'.index < length)) c') ∧
      ∀ bytes, bytes.length = length → Reads bytes (start length) calls →
        c.position = .ofOffset bytes c.offset := by
  intro c
  refine ⟨index_after_start length calls, line_after_start length calls,
    column_position_after_start length calls, fun call => ?_, fun bytes _ h => position_after_start h⟩
  intro c'
  have hmoved : c' = c.next call.leaving := after_append_singleton _ calls call
  have hindex : c'.index = calls.length := by
    rw [index_after_start, List.length_append, List.length_singleton]
    omega
  have hinside : c'.inBounds = decide (c'.index < length) := by
    rw [inBounds, offset, hindex, length_after_start]
    simp
  rw [advance, ← hmoved, hinside]
  simp

/-- Over two lines and past the end, where a call fails and the next one does not. -/
theorem after_start_pastEnd :
    let bytes : List UInt8 := [97, 10, 98]
    let calls : List Call := [⟨none, false⟩, ⟨some 97, true⟩, ⟨some 10, true⟩, ⟨some 98, true⟩,
      ⟨none, false⟩]
    let c := (start 3).after calls
    bytes.length = 3 ∧ Reads bytes (start 3) calls ∧ c.index = 4 ∧ c.position.line = 2 ∧
      c.position.column = 2 ∧ c.position = .ofOffset bytes c.offset ∧
      advance none true c =
        .error ⟨.unexpectedEnd, c.position⟩ ((start 3).after (calls ++ [⟨none, true⟩])) := by
  intro bytes calls c
  have hreads : Reads bytes (start 3) calls := ⟨rfl, rfl, rfl, rfl, rfl, trivial⟩
  obtain ⟨hindex, hline, hcolumn, hadvance, hplace⟩ := after_start 3 calls
  have hfails := (hadvance ⟨none, true⟩).trans (if_pos ⟨rfl, by decide⟩)
  exact ⟨rfl, hreads, hindex, hline, hcolumn, hplace bytes rfl hreads, hfails⟩

end Mnemonic.Cursor
