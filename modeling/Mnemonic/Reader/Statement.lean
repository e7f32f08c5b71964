import Mnemonic.Program
import Mnemonic.Reader.Scanner

set_option autoImplicit false

/-!
# Reading one statement

What can stand where a statement may start: a separator, a comment, a section directive, a data
entry or an instruction. `Scan.item` tells them apart by the character under the cursor and reads
what it finds.

Words end at separators. The operands of an instruction are the rest of its line, cut at blanks;
each may hold ASCII letters, digits, `_` and `-` only. The place reported for a bad operand character
is found by walking back from the end of the line, where the cursor stands by then.

Main statement: reading an item never goes back in the text (`Shrinks.item`).
-/

namespace Mnemonic

/-- A piece of text together with its span. -/
structure Lexeme where
  text : List Char
  span : Span
  deriving DecidableEq, Repr

namespace Lexeme

/-- The word ends in a colon, as labels and data symbols do. -/
def endsInColon (w : Lexeme) : Bool := w.text.getLast? == some ':'

end Lexeme

namespace Span

/-- Puts a character in front of the spans of the text that follows it: it joins the first of them
when that one starts right after it. -/
def consChar (offset : Nat) (c : Char) : List Span → List Span
  | [] => [⟨offset, offset + c.utf8Size⟩]
  | s :: ss =>
      if s.lower = offset + c.utf8Size then
        ⟨offset, s.upper⟩ :: ss
      else
        ⟨offset, offset + c.utf8Size⟩ :: s :: ss

/-- The maximal runs of characters that are not blank, in a text that starts at an offset. -/
def betweenBlanks (offset : Nat) : List Char → List Span
  | [] => []
  | c :: cs =>
      let rest := betweenBlanks (offset + c.utf8Size) cs
      if Text.isBlank c then rest else consChar offset c rest

end Span

/-- The word that starts a section directive. -/
def sectionKeyword : List Char := ['s', 'e', 'c', 't', 'i', 'o', 'n']

/-- A character that an operand may hold. -/
def isOperandChar (c : Char) : Bool := c.isAlphanum || c == '_' || c == '-'

/-- The first character of a text that no operand may hold, with its offset. -/
def badOperandChar? (offset : Nat) : List Char → Option (Nat × Char)
  | [] => none
  | c :: cs => if isOperandChar c then badOperandChar? (offset + c.utf8Size) cs else some (offset, c)

/-- What reading one statement adds: another active section, or an entry of the program. -/
inductive Item where
  | section (s : Section)
  | data (e : Datum)
  | instruction (i : Instruction)
  deriving DecidableEq, Repr

namespace Scan

/-! ## Words and operands -/

/-- Reads the next word, over separators. A required word fails at the end of the text if there is
none. -/
def word (required : Bool) : Scan Lexeme := do
  let _ ← passWhile required Text.isSeparator
  let lower ← offset
  let _ ← passWhile false (!Text.isSeparator ·)
  let upper ← offset
  let span : Span := ⟨lower, upper⟩
  if required && span.isEmpty then
    fail .unexpectedEnd
  else
    return ⟨← slice span, span⟩

/-- Accepts an operand, or fails at its first bad character. The cursor is at the end of the line,
so the column of that character is the cursor's less the bytes in between. -/
def operand (span : Span) : Scan Span := do
  match badOperandChar? span.lower (← slice span) with
  | none => return span
  | some (bad, c) =>
      let stop ← offset
      let place ← position
      throw ⟨.invalidOperandCharacter c, ⟨place.line, place.column - (stop - bad)⟩⟩

/-- Accepts operands one after the other. -/
def operandList : List Span → Scan (List Span)
  | [] => return []
  | s :: ss => do
      let first ← operand s
      let others ← operandList ss
      return first :: others

/-- Reads the operands on the rest of the line. -/
def operands : Scan (List Span) := do
  let _ ← passWhile false (· == ' ')
  let lower ← offset
  let _ ← passWhile false (· != '\n')
  let upper ← offset
  operandList (Span.betweenBlanks lower (← slice ⟨lower, upper⟩))

/-! ## Statements -/

/-- Reads the rest of a section directive, after its first word. -/
def sectionName (active : Option Section) : Scan Section := do
  let w ← word true
  match Section.ofName? (String.ofList w.text) with
  | none => fail (.invalidSectionName (String.ofList w.text))
  | some s =>
      if active = some s then fail (.sectionRedefinition s.name) else return s

/-- Reads the label and the name of an instruction that starts with the given word. -/
def labelAndName (first : Lexeme) : Scan (Option Span × Span) := do
  if first.endsInColon then
    let name ← word true
    if name.text = sectionKeyword then
      fail .illegalInstruction
    else
      return (some (first.span.trimEnd 1), name.span)
  else
    return (none, first.span)

/-- Reads an instruction that starts with the given word. -/
def instruction (first : Lexeme) : Scan Instruction := do
  let (label, name) ← labelAndName first
  let operands ← operands
  let place ← position
  return ⟨name, operands, label, place.line, place.column⟩

/-- Reads the value of a data entry: a quoted string, or a word. -/
def value : Scan Unit := do
  match (← ahead).head? with
  | none => fail .unexpectedEnd
  | some c =>
      if c == '\'' || c == '"' then
        passQuoted c
      else do
        let _ ← word true
        return ()

/-- Reads a data entry that starts with the given word. -/
def datum (first : Lexeme) : Scan Datum := do
  if first.endsInColon then
    let _ ← passWhile true Text.isSeparator
    let lower ← offset
    value
    let upper ← offset
    let place ← position
    return ⟨first.span.trimEnd 1, ⟨lower, upper⟩, place.line, place.column⟩
  else
    fail .missingDataSymbol

/-- Reads a statement in the given section. -/
def statement (active : Option Section) : Scan Item := do
  let first ← word false
  if first.text = sectionKeyword then
    return .section (← sectionName active)
  else
    match active with
    | none => fail .statementBeforeSection
    | some .text => return .instruction (← instruction first)
    | some .data => return .data (← datum first)

/-- Passes over the rest of the line, up to its line feed. -/
def comment : Scan Unit := do
  let _ ← passWhile false (· != '\n')
  return ()

/-- Reads what starts at the cursor. Separators are left where they are, and so is a slash, which
starts a comment only when another slash was passed just before. -/
def item (active : Option Section) (c : Char) : Scan (Option Item) := do
  if Text.isSeparator c then
    return none
  else if c == '#' || c == ';' then
    comment
    return none
  else if c == '/' then
    if (← get).previous = some '/' then
      comment
    return none
  else
    return some (← statement active)

/-! ## Reading never goes back -/

namespace Shrinks

theorem word (required : Bool) : Shrinks (word required) := by
  refine bind (passWhile _ _) fun _ => bind offset fun _ => bind (passWhile _ _) fun _ =>
    bind offset fun _ => ?_
  dsimp only
  split
  · exact fail _
  · exact bind (slice _) fun _ => pure _

theorem operand (span : Span) : Shrinks (operand span) := by
  refine bind (slice span) fun token => ?_
  split
  · exact pure _
  · exact bind offset fun _ => bind position fun _ => throw _

theorem operandList (spans : List Span) : Shrinks (operandList spans) := by
  induction spans with
  | nil => exact pure _
  | cons s ss ih => exact bind (operand s) fun _ => bind ih fun _ => pure _

theorem operands : Shrinks operands :=
  bind (passWhile _ _) fun _ => bind offset fun _ => bind (passWhile _ _) fun _ =>
    bind offset fun _ => bind (slice _) fun _ => operandList _

theorem sectionName (active : Option Section) : Shrinks (sectionName active) := by
  refine bind (word _) fun w => ?_
  split
  · exact fail _
  · split
    · exact fail _
    · exact pure _

theorem labelAndName (first : Lexeme) : Shrinks (labelAndName first) := by
  unfold Scan.labelAndName
  split
  · refine bind (word _) fun name => ?_
    split
    · exact fail _
    · exact pure _
  · exact pure _

theorem instruction (first : Lexeme) : Shrinks (instruction first) :=
  bind (labelAndName _) fun _ => bind operands fun _ => bind position fun _ => pure _

theorem value : Shrinks value := by
  refine bind ahead fun cs => ?_
  split
  · exact fail _
  · split
    · exact passQuoted _
    · exact bind (word _) fun _ => pure _

theorem datum (first : Lexeme) : Shrinks (datum first) := by
  unfold Scan.datum
  split
  · exact bind (passWhile _ _) fun _ => bind offset fun _ => bind value fun _ =>
      bind offset fun _ => bind position fun _ => pure _
  · exact fail _

theorem statement (active : Option Section) : Shrinks (statement active) := by
  refine bind (word _) fun first => ?_
  split
  · exact bind (sectionName _) fun _ => pure _
  · split
    · exact fail _
    · exact bind (instruction _) fun _ => pure _
    · exact bind (datum _) fun _ => pure _

theorem comment : Shrinks comment := bind (passWhile _ _) fun _ => pure _

theorem item (active : Option Section) (c : Char) : Shrinks (item active c) := by
  unfold Scan.item
  split
  · exact pure _
  · split
    · exact bind comment fun _ => pure _
    · split
      · refine bind get fun s => ?_
        split
        · exact bind comment fun _ => pure _
        · exact pure _
      · exact bind (statement _) fun _ => pure _

end Shrinks

end Scan

end Mnemonic
