set_option autoImplicit false

/-!
# Errors of the reader

What can be wrong with an assembly text, where it was noticed, and how it is worded. A place is a
line, counted from one, and a column, counted in bytes from zero.
-/

namespace Mnemonic

/-- A place in a text: lines count from one, columns count bytes from zero. -/
structure Position where
  line : Nat
  column : Nat
  deriving DecidableEq, Repr, Inhabited

/-- What is wrong with a text. -/
inductive SyntaxFault where
  /-- the text ended where more was needed -/
  | unexpectedEnd
  /-- a section directive names no known section -/
  | invalidSectionName (name : String)
  /-- a section directive names the section that is active already -/
  | sectionRedefinition (name : String)
  /-- a statement stands before the first section directive -/
  | statementBeforeSection
  /-- a label is followed by a section directive -/
  | illegalInstruction
  /-- a data entry does not start with a symbol and a colon -/
  | missingDataSymbol
  /-- an operand holds a character that no operand may hold -/
  | invalidOperandCharacter (c : Char)
  deriving DecidableEq, Repr

/-- The wording of a fault, without its place. -/
def SyntaxFault.message : SyntaxFault → String
  | unexpectedEnd => "unexpected end of input"
  | invalidSectionName name => "invalid section name `" ++ name ++ "`"
  | sectionRedefinition name => "redefinition of section " ++ name
  | statementBeforeSection => "statement found before any section"
  | illegalInstruction => "illegal instruction"
  | missingDataSymbol => "data does not have a symbol"
  | invalidOperandCharacter c => "invalid character `" ++ c.toString ++ "` in operand"

/-- A fault and the place where it was noticed. -/
structure SyntaxError where
  fault : SyntaxFault
  position : Position
  deriving DecidableEq, Repr

/-- The wording of an error: its place, then its fault. -/
def SyntaxError.describe (e : SyntaxError) : String :=
  s!"{e.position.line}:{e.position.column}: {e.fault.message}"

end Mnemonic
