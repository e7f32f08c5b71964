import Mnemonic.Program

set_option autoImplicit false

/-!
# Listings

A listing shows a program with one line for each entry, under a header for each section that has
entries. It is put together from pieces of text, each plain or painted in a hue; a plain rendering
drops the paint and nothing else, since the pieces are the same.
-/

namespace Mnemonic.Listing

/-- The paints of a listing. -/
inductive Hue where
  | dim
  | green
  | yellow
  | cyan
  | magenta
  deriving DecidableEq, Repr

/-- The terminal code that starts a paint. -/
def Hue.code : Hue → List Char
  | dim => "\x1b[2m".toList
  | green => "\x1b[32m".toList
  | yellow => "\x1b[33m".toList
  | cyan => "\x1b[36m".toList
  | magenta => "\x1b[35m".toList

/-- The terminal code that ends every paint. -/
def resetCode : List Char := "\x1b[0m".toList

/-- A piece of text, plain or painted. -/
structure Piece where
  hue : Option Hue
  text : List Char
  deriving DecidableEq, Repr

namespace Piece

/-- A piece without paint. -/
def plain (text : String) : Piece := ⟨none, text.toList⟩

/-- A painted piece. -/
def painted (hue : Hue) (text : List Char) : Piece := ⟨some hue, text⟩

/-- The characters of a piece; with colour, paint is started before it and ended after it. -/
def render (color : Bool) (p : Piece) : List Char :=
  match p.hue with
  | none => p.text
  | some hue => if color then hue.code ++ p.text ++ resetCode else p.text

end Piece

/-- How a listing is shown. -/
structure Style where
  /-- paint the pieces -/
  color : Bool
  /-- end each line with the bytes that its entry takes in the source -/
  ranges : Bool
  deriving DecidableEq, Repr

/-- A number of at least two digits. -/
def twoDigits (n : Nat) : List Char :=
  if n < 10 then '0' :: (toString n).toList else (toString n).toList

/-- Line and column in brackets. -/
def stamp (line column : Nat) : Piece :=
  .painted .dim ('[' :: twoDigits line ++ ':' :: twoDigits column ++ [']'])

/-- Where an entry starts and ends, if that is shown. -/
def extent (style : Style) (lower upper : Nat) : List Piece :=
  if style.ranges then [.plain s!"  @{lower}..{upper}"] else []

/-- A value on one line: line feeds are spelled out. -/
def spellLineFeeds (value : List Char) : List Char :=
  value.flatMap fun c => if c = '\n' then ['\\', 'n'] else [c]

/-- Quoted strings are green, words are cyan. -/
def valueHue (value : List Char) : Hue :=
  match value.head? with
  | some c => if c = '\'' || c = '"' then .green else .cyan
  | none => .cyan

/-- The line of a data entry. -/
def dataLine (style : Style) (source : List Char) (e : Datum) : Except Misfit (List Piece) := do
  let symbol ← e.symbol.slice source
  let value ← e.value.slice source
  return [stamp e.line e.column, .plain " DATA   ", .painted .yellow symbol, .plain ": ",
      .painted (valueHue value) (spellLineFeeds value)] ++
    extent style e.symbol.lower e.value.upper ++ [.plain "\n"]

/-- Where the spans of an instruction start. -/
def instructionLower (i : Instruction) : Nat := (i.label.getD i.name).lower

/-- Where the spans of an instruction end. -/
def instructionUpper (i : Instruction) : Nat := (i.operands.getLast?.getD i.name).upper

/-- The pieces of a label, if there is one. -/
def labelPieces (source : List Char) : Option Span → Except Misfit (List Piece)
  | none => return []
  | some label => return [.painted .yellow ((← label.slice source) ++ [':']), .plain " "]

/-- The pieces of an operand. -/
def operandPieces (source : List Char) (operand : Span) : Except Misfit (List Piece) :=
  return [.plain " ", .painted .cyan (← operand.slice source)]

/-- The line of an instruction. -/
def instructionLine (style : Style) (source : List Char) (i : Instruction) :
    Except Misfit (List Piece) := do
  let label ← labelPieces source i.label
  let name ← i.name.slice source
  let operands ← i.operands.mapM (operandPieces source)
  return [stamp i.line i.column, .plain " INSTR  "] ++ label ++ [.painted .magenta name] ++
    operands.flatten ++ extent style (instructionLower i) (instructionUpper i) ++ [.plain "\n"]

/-- The header of a section. -/
def header (s : Section) : List Piece :=
  [.painted .dim ("section ".toList ++ s.name.toList), .plain "\n"]

/-- The lines of a section under its header; nothing for a section without entries. -/
def block {α : Type} (s : Section) (line : α → Except Misfit (List Piece)) (entries : List α) :
    Except Misfit (List Piece) :=
  if entries.isEmpty then return [] else return header s ++ (← entries.mapM line).flatten

/-- The pieces of a whole listing. -/
def pieces (style : Style) (source : List Char) (p : Program) : Except Misfit (List Piece) := do
  let data ← block .data (dataLine style source) p.data
  let text ← block .text (instructionLine style source) p.text
  return data ++ text

/-- The listing of a program. It fails when a span does not fit the source. -/
def render (style : Style) (source : List Char) (p : Program) : Except Misfit (List Char) := do
  return (← pieces style source p).flatMap (·.render style.color)

end Mnemonic.Listing
