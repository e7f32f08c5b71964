import Mnemonic.Cursor
import Mnemonic.Span
import Mnemonic.Text.Blank

set_option autoImplicit false

/-!
# The scanner

A scanner is a cursor in a text together with the characters that are still ahead, the one under the
cursor first, and the character that was passed last. All motion is made of `passText`, which passes
over a run of characters; what the run is, is decided beforehand on the characters ahead.

A scan that fails has moved all the same, and the next scan starts where it stopped.

Words are taken out of the whole text by the offsets between which they were passed over. A span that
does not lie in the text cannot be taken out; the scanner notes such a span.

Main statement: no scan built from these pieces ever lengthens what is ahead (`Shrinks`, closed under
`bind`), which is what makes reading a whole text terminate.
-/

namespace Mnemonic

/-- A cursor in a text, the character passed last, and what is ahead. -/
structure Scanner where
  /-- the whole text -/
  source : List Char
  cursor : Cursor
  previous : Option Char
  /-- the characters from the cursor on; all of them while the cursor is before the first -/
  ahead : List Char
  /-- the last span that did not lie in the text when its text was asked for -/
  misfit : Option Misfit
  deriving Repr

/-- An action that reads from a text. It moves the scanner, also when it fails. -/
abbrev Scan := EStateM SyntaxError Scanner

namespace Scanner

/-- The scanner before the first character of a text. -/
def ofText (text : List Char) : Scanner :=
  ⟨text, .start (Text.byteLength text), none, text, none⟩

/-- The cursor is before the first character. -/
def beforeFirst (s : Scanner) : Bool := s.cursor.index < 0

/-- The scanner on the first character, coming from before it, or one further past the end. -/
def enter (s : Scanner) : Scanner := { s with cursor := s.cursor.next none }

/-- The scanner after leaving the character under the cursor unread. -/
def skip (s : Scanner) : Scanner :=
  match s.ahead with
  | [] => s.enter
  | c :: cs => { s with cursor := s.cursor.nextChar c, previous := some c, ahead := cs }

/-- The scanner one character further on, wherever it is. -/
def leave (s : Scanner) : Scanner := if s.beforeFirst then s.enter else s.skip

theorem length_ahead_skip (s : Scanner) : s.skip.ahead.length = s.ahead.length - 1 := by
  unfold skip
  split <;> simp_all [enter]

end Scanner

namespace Scan

/-- The scanner after an action, whether it succeeds or fails. -/
def final {α : Type} (x : Scan α) (s : Scanner) : Scanner :=
  match x s with
  | .ok _ s' => s'
  | .error _ s' => s'

/-- The offset of the cursor. -/
def offset : Scan Nat := return (← get).cursor.offset

/-- Line and column of the cursor. -/
def position : Scan Position := return (← get).cursor.position

/-- The characters from the cursor on. -/
def ahead : Scan (List Char) := return (← get).ahead

/-- The text of a span. A span that does not lie in the text is noted and reads as no text. -/
def slice (span : Span) : Scan (List Char) := fun s =>
  match span.slice s.source with
  | .ok text => .ok text s
  | .error misfit => .ok [] { s with misfit := some misfit }

/-- Fails at the place of the cursor. -/
def fail {α : Type} (fault : SyntaxFault) : Scan α := do
  throw ⟨fault, ← position⟩

/-- Passes over one character, failing at the end of the text if asked to. -/
def passChar (failAtEnd : Bool) (c : Char) : Scan Unit := fun s =>
  match s.cursor.pass failAtEnd c with
  | .ok _ cursor => .ok () { s with cursor, previous := some c, ahead := s.ahead.tail }
  | .error e cursor => .error e { s with cursor, previous := some c, ahead := s.ahead.tail }

/-- Passes over a run of characters. -/
def passText (failAtEnd : Bool) : List Char → Scan Unit
  | [] => pure ()
  | c :: cs => do
      passChar failAtEnd c
      passText failAtEnd cs

/-- Passes over the characters ahead that have a property, and returns them. -/
def passWhile (failAtEnd : Bool) (p : Char → Bool) : Scan (List Char) := do
  let run := (← ahead).takeWhile p
  passText failAtEnd run
  return run

/-- What stands between an opening quote and its closing one: all characters before the first quote
of that kind that does not follow a backslash. -/
def quotedBody (quote : Char) (previous : Char) : List Char → List Char
  | [] => []
  | c :: cs =>
      if c == quote && previous != '\\' then [] else c :: quotedBody quote c cs

/-- Passes over a quoted string, from its opening quote over its closing one. -/
def passQuoted (quote : Char) : Scan Unit := do
  let body := quotedBody quote quote (← ahead).tail
  passText true (quote :: body)
  passChar false quote

/-! ## Scans never go back -/

/-- Whatever the action does, what is ahead afterwards is no longer than before. -/
def Shrinks {α : Type} (x : Scan α) : Prop :=
  ∀ s, (x.final s).ahead.length ≤ s.ahead.length

namespace Shrinks

variable {α β : Type}

theorem pure (a : α) : Shrinks (Pure.pure a : Scan α) := fun _ => Nat.le_refl _

theorem throw (e : SyntaxError) : Shrinks (MonadExcept.throw e : Scan α) := fun _ => Nat.le_refl _

theorem bind {x : Scan α} {f : α → Scan β} (hx : Shrinks x) (hf : ∀ a, Shrinks (f a)) :
    Shrinks (x >>= f) := by
  intro s
  have hs := hx s
  simp only [final, Bind.bind, EStateM.bind] at hs ⊢
  cases h : x s with
  | ok a s' =>
      simp only [h] at hs ⊢
      exact Nat.le_trans (hf a s') hs
  | error e s' => simpa only [h] using hs

theorem offset : Shrinks offset := fun _ => Nat.le_refl _

theorem position : Shrinks position := fun _ => Nat.le_refl _

theorem ahead : Shrinks ahead := fun _ => Nat.le_refl _

theorem slice (span : Span) : Shrinks (slice span) := by
  intro s
  unfold final Scan.slice
  cases span.slice s.source <;> simp

theorem get : Shrinks (MonadState.get : Scan Scanner) := fun _ => Nat.le_refl _

theorem fail (fault : SyntaxFault) : Shrinks (Scan.fail fault : Scan α) := fun _ => Nat.le_refl _

theorem passChar (failAtEnd : Bool) (c : Char) : Shrinks (passChar failAtEnd c) := by
  intro s
  unfold final Scan.passChar
  cases s.cursor.pass failAtEnd c <;> simp

theorem passText (failAtEnd : Bool) (run : List Char) : Shrinks (passText failAtEnd run) := by
  induction run with
  | nil => exact pure ()
  | cons c cs ih => exact bind (passChar failAtEnd c) fun _ => ih

theorem passWhile (failAtEnd : Bool) (p : Char → Bool) : Shrinks (passWhile failAtEnd p) :=
  bind ahead fun _ => bind (passText _ _) fun _ => pure _

theorem passQuoted (quote : Char) : Shrinks (passQuoted quote) :=
  bind ahead fun _ => bind (passText _ _) fun _ => passChar _ _

end Shrinks

end Scan

end Mnemonic
