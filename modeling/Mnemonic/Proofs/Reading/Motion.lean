import Mnemonic.Proofs.Reading.Place
import Mnemonic.Reader.Scanner

set_option autoImplicit false

/-!
# Motion of the scanner

While a text is read it is cut in two: what was passed, and what is ahead. The scanner *between* two
such parts is determined by them, and each motion is an equation between scanners of this form.

Main statements: a character passed goes from one part to the other (`skip_between`,
`passChar_between`), a run that ends before the text does is passed whatever the mode
(`passText_between`, `passWhile_between`), one that ends with the text fails at its last byte when asked
to (`passText_end`, `passWhile_end`), and a middle part of the text is sliced out at its span
(`slice_between`).
-/

namespace Mnemonic

open Text

/-- The span of a word that stands behind a text. -/
def Span.behind (before word : List Char) : Span :=
  ⟨byteLength before, byteLength before + byteLength word⟩

/-- A word ends where the text up to its end does. -/
theorem Span.upper_behind (before word : List Char) :
    (Span.behind before word).upper = byteLength (before ++ word) :=
  (byteLength_append before word).symm

theorem Span.slice_behind (before word after : List Char) :
    (Span.behind before word).slice (before ++ word ++ after) = .ok word := by
  rw [Span.slice_eq_ok_iff]
  exact Text.slice?_append before word after

theorem Span.isEmpty_behind_iff (before word : List Char) :
    (Span.behind before word).isEmpty = true ↔ word = [] := by
  rw [Span.isEmpty_iff, ← byteLength_eq_zero_iff, Span.behind]
  dsimp only
  omega

namespace Scanner

/-- The scanner of a text between the part that was passed and the part that is ahead. -/
def between (before ahead : List Char) : Scanner where
  source := before ++ ahead
  cursor := .behind (byteLength (before ++ ahead)) (encode before)
  previous := before.getLast?
  ahead := ahead
  misfit := none

theorem leave_ofText (text : List Char) : (ofText text).leave = between [] text := by
  have hbefore : (ofText text).beforeFirst = true := by
    simp [ofText, beforeFirst, Cursor.start]
  rw [leave, if_pos hbefore, enter]
  simp [ofText, between, Cursor.next_start]

theorem not_beforeFirst_between (before ahead : List Char) :
    (between before ahead).beforeFirst = false := by
  simp [between, beforeFirst, Cursor.behind]

theorem skip_between (before : List Char) (c : Char) (ahead : List Char) :
    (between before (c :: ahead)).skip = between (before ++ [c]) ahead := by
  simp [skip, between, Cursor.nextChar_behind]

/-- Nothing of the text is ahead any more, and whatever was taken out of it did lie in it. -/
structure Spent (s : Scanner) : Prop where
  ahead_eq : s.ahead = []
  misfit_eq : s.misfit = none
  not_before : s.beforeFirst = false

theorem spent_between (before : List Char) : (between before []).Spent :=
  ⟨rfl, rfl, not_beforeFirst_between before []⟩

theorem Spent.skip {s : Scanner} (h : s.Spent) : s.skip.Spent := by
  obtain ⟨hahead, hmisfit, hbefore⟩ := h
  have hskip : s.skip = s.enter := by
    unfold Scanner.skip
    rw [hahead]
  rw [hskip]
  refine ⟨hahead, hmisfit, ?_⟩
  simp only [beforeFirst, decide_eq_false_iff_not] at hbefore ⊢
  simp only [enter, Cursor.next, reduceCtorEq, if_false]
  omega

theorem Spent.leave {s : Scanner} (h : s.Spent) : s.leave.Spent := by
  rw [Scanner.leave, if_neg (by simp [h.not_before])]
  exact h.skip

end Scanner

namespace Scan

open Scanner

variable {α β : Type}

theorem bind_of_ok {x : Scan α} {f : α → Scan β} {s s' : Scanner} {a : α}
    (h : x s = .ok a s') : (x >>= f) s = f a s' := by
  simp only [Bind.bind, EStateM.bind, h]

theorem bind_of_error {x : Scan α} {f : α → Scan β} {s s' : Scanner} {e : SyntaxError}
    (h : x s = .error e s') : (x >>= f) s = .error e s' := by
  simp only [Bind.bind, EStateM.bind, h]

theorem offset_between (before ahead : List Char) :
    offset (between before ahead) = .ok (byteLength before) (between before ahead) := by
  have hoffset : (between before ahead).cursor.offset = byteLength before := by
    simp [between]
  rw [← hoffset]
  rfl

theorem position_between (before ahead : List Char) :
    position (between before ahead) =
      .ok (Position.behind (encode before)) (between before ahead) := by
  have hposition : (between before ahead).cursor.position = Position.behind (encode before) := by
    simp [between]
  rw [← hposition]
  rfl

theorem ahead_between (before ahead : List Char) :
    Scan.ahead (between before ahead) = .ok ahead (between before ahead) := rfl

theorem fail_between (fault : SyntaxFault) (before ahead : List Char) :
    (fail fault : Scan α) (between before ahead) =
      .error ⟨fault, Position.behind (encode before)⟩ (between before ahead) := by
  unfold fail
  rw [bind_of_ok (position_between before ahead)]
  rfl

theorem slice_between {before ahead a word b : List Char} (h : before ++ ahead = a ++ word ++ b) :
    slice (.behind a word) (between before ahead) = .ok word (between before ahead) := by
  have hslice : (Span.behind a word).slice (between before ahead).source = .ok word := by
    simp only [between, h]
    exact Span.slice_behind a word b
  simp only [slice, hslice]

/-! ## Passing over a run of characters -/

theorem passChar_false_between (before : List Char) (c : Char) (ahead : List Char) :
    passChar false c (between before (c :: ahead)) = .ok () (between (before ++ [c]) ahead) := by
  simp [passChar, Cursor.pass_false, between, Cursor.nextChar_behind]

theorem passChar_true_between (before : List Char) (c : Char) {ahead : List Char}
    (h : ahead ≠ []) :
    passChar true c (between before (c :: ahead)) = .ok () (between (before ++ [c]) ahead) := by
  have hroom : (encode before).length + (String.utf8EncodeChar c).length <
      byteLength (before ++ c :: ahead) := by
    have hpos := Nat.pos_of_ne_zero (mt (byteLength_eq_zero_iff ahead).1 h)
    rw [length_encode, String.length_utf8EncodeChar, byteLength_append, byteLength_cons]
    omega
  simp only [passChar, Cursor.pass, between, Cursor.advanceOver_true_behind hroom]
  simp

/-- A failure that is noticed at the end of the text is reported at the last byte. -/
theorem passChar_true_end (before : List Char) (c : Char) :
    passChar true c (between before [c]) =
      .error ⟨.unexpectedEnd, Position.behind (encode (before ++ [c])).dropLast⟩
        (between (before ++ [c]) []) := by
  have hroom : (encode before).length + (String.utf8EncodeChar c).length =
      byteLength (before ++ [c]) := by
    rw [length_encode, String.length_utf8EncodeChar, byteLength_append, byteLength_cons,
      byteLength_nil, Nat.add_zero]
  have hlast : (encode (before ++ [c])).dropLast =
      encode before ++ (String.utf8EncodeChar c).dropLast := by
    simp [List.dropLast_append_of_ne_nil]
  simp only [passChar, Cursor.pass, between, hlast,
    Cursor.advanceOver_true_behind_end String.utf8EncodeChar_ne_nil hroom]
  simp

theorem passChar_between {failAtEnd : Bool} (before : List Char) (c : Char) {ahead : List Char}
    (h : failAtEnd = false ∨ ahead ≠ []) :
    passChar failAtEnd c (between before (c :: ahead)) = .ok () (between (before ++ [c]) ahead) := by
  cases failAtEnd with
  | false => exact passChar_false_between before c ahead
  | true => exact passChar_true_between before c (h.resolve_left (by simp))

theorem passText_between {failAtEnd : Bool} (before run ahead : List Char)
    (h : failAtEnd = false ∨ ahead ≠ []) :
    passText failAtEnd run (between before (run ++ ahead)) = .ok () (between (before ++ run) ahead) := by
  induction run generalizing before with
  | nil => simp [passText, Pure.pure, EStateM.pure]
  | cons c run ih =>
      have hrest : failAtEnd = false ∨ run ++ ahead ≠ [] :=
        h.imp_right fun hne happ => hne (List.append_eq_nil_iff.1 happ).2
      rw [passText, List.cons_append, bind_of_ok (passChar_between before c hrest), ih,
        List.append_assoc, List.singleton_append]

theorem passText_end (before : List Char) {run : List Char} (h : run ≠ []) :
    passText true run (between before run) =
      .error ⟨.unexpectedEnd, Position.behind (encode (before ++ run)).dropLast⟩
        (between (before ++ run) []) := by
  induction run generalizing before with
  | nil => exact absurd rfl h
  | cons c run ih =>
      rw [passText]
      cases run with
      | nil => exact bind_of_error (passChar_true_end before c)
      | cons d run =>
          rw [bind_of_ok (passChar_true_between before c (List.cons_ne_nil d run)),
            ih (before ++ [c]) (List.cons_ne_nil d run), List.append_assoc, List.singleton_append]

theorem passWhile_between {failAtEnd : Bool} (p : Char → Bool) (before ahead : List Char)
    (h : failAtEnd = false ∨ ahead.dropWhile p ≠ [] ∨ ahead = []) :
    passWhile failAtEnd p (between before ahead) =
      .ok (ahead.takeWhile p) (between (before ++ ahead.takeWhile p) (ahead.dropWhile p)) := by
  have hpass : passText failAtEnd (ahead.takeWhile p) (between before ahead) =
      .ok () (between (before ++ ahead.takeWhile p) (ahead.dropWhile p)) := by
    rcases h with hfalse | hne | rfl
    · have hrun := passText_between before (ahead.takeWhile p) (ahead.dropWhile p) (Or.inl hfalse)
      rwa [List.takeWhile_append_dropWhile] at hrun
    · have hroom : failAtEnd = false ∨ ahead.dropWhile p ≠ [] := Or.inr hne
      have hrun := passText_between before (ahead.takeWhile p) (ahead.dropWhile p) hroom
      rwa [List.takeWhile_append_dropWhile] at hrun
    · simp [passText, Pure.pure, EStateM.pure]
  rw [passWhile, bind_of_ok (ahead_between before ahead), bind_of_ok hpass]
  rfl

theorem passWhile_end (p : Char → Bool) (before : List Char) {ahead : List Char}
    (hne : ahead ≠ []) (h : ahead.dropWhile p = []) :
    passWhile true p (between before ahead) =
      .error ⟨.unexpectedEnd, Position.behind (encode (before ++ ahead)).dropLast⟩
        (between (before ++ ahead) []) := by
  have htake : ahead.takeWhile p = ahead := by
    have hsplit := List.takeWhile_append_dropWhile (p := p) (l := ahead)
    rwa [h, List.append_nil] at hsplit
  rw [passWhile, bind_of_ok (ahead_between before ahead), htake]
  exact bind_of_error (passText_end before hne)

end Scan

end Mnemonic
