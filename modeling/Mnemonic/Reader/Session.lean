import Mnemonic.Reader.Statement

set_option autoImplicit false

/-!
# Reading a whole text

A reading session goes through a text statement by statement and collects a program. An error ends
the attempt but not the session: the place, the active section and the entries read so far stay, so
a further attempt goes on behind the place where the last one stopped. An attempt that reaches the
end takes the collected program out of the session.

Between two items the character under the cursor is left unread. After a statement that character
is the separator behind it, or whatever stands directly behind a closing quote.

Main statement: one turn of the reading loop leaves less ahead (`length_ahead_skip_lt`), so reading
ends. `Program.read` is the first attempt of a session.
-/

namespace Mnemonic

/-- A text that is being read: the scanner, the active section, and what was read so far. -/
structure Session where
  scanner : Scanner
  active : Option Section
  program : Program
  deriving Repr

namespace Session

/-- The session at the start of a text. No section is active yet. -/
def ofText (text : List Char) : Session := ⟨.ofText text, none, .empty⟩

/-- The session at the start of a text. -/
def ofString (source : String) : Session := ofText source.toList

/-- The session with what an item adds. -/
def record (s : Session) : Item → Session
  | .section active => { s with active := some active }
  | .data e => { s with program := s.program.pushData e }
  | .instruction i => { s with program := s.program.pushInstruction i }

/-- The session after an item, or after a separator or a comment. -/
def recordIfAny (s : Session) : Option Item → Session
  | none => s
  | some item => s.record item

/-- One turn of the reading loop leaves less ahead. -/
theorem length_ahead_skip_lt {scanner moved : Scanner} {active : Option Section} {c : Char}
    {cs : List Char} {found : Option Item} (hahead : scanner.ahead = c :: cs)
    (hitem : Scan.item active c scanner = .ok found moved) :
    moved.skip.ahead.length < scanner.ahead.length := by
  have hle : moved.ahead.length ≤ scanner.ahead.length := by
    simpa [Scan.final, hitem] using Scan.Shrinks.item active c scanner
  rw [Scanner.length_ahead_skip]
  simp only [hahead, List.length_cons] at hle ⊢
  omega

/-- Reads from the cursor to the end of the text, or to the first error. At the end the program is
taken out of the session. -/
def readItems (s : Session) : Except SyntaxError Program × Session :=
  match _hahead : s.scanner.ahead with
  | [] => (.ok s.program, { s with program := .empty })
  | c :: _ =>
      match _hitem : Scan.item s.active c s.scanner with
      | .error e moved => (.error e, { s with scanner := moved })
      | .ok found moved => readItems { s.recordIfAny found with scanner := moved.skip }
termination_by s.scanner.ahead.length
decreasing_by exact length_ahead_skip_lt _hahead _hitem

/-- Makes one attempt to read on to the end of the text. -/
def read (s : Session) : Except SyntaxError Program × Session :=
  readItems { s with scanner := s.scanner.leave }

/-- Makes a number of attempts, one after the other, and returns what each of them answered. -/
def readTimes (s : Session) : Nat → List (Except SyntaxError Program)
  | 0 => []
  | n + 1 => s.read.1 :: s.read.2.readTimes n

end Session

/-- The program that a text holds. -/
def Program.read (source : String) : Except SyntaxError Program := (Session.ofString source).read.1

end Mnemonic
