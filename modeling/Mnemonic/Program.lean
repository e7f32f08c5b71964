import Mnemonic.Span

set_option autoImplicit false

/-!
# Programs

A program is what a text holds after reading: labelled values, from its data sections, and
instructions, from its text sections, each kind in source order. Every part is a span of the source,
so a program means something only together with the text that it was read from.
-/

namespace Mnemonic

/-- The two kinds of section. -/
inductive Section where
  | text
  | data
  deriving DecidableEq, Repr

namespace Section

/-- The name of a section, as a directive writes it. -/
def name : Section → String
  | text => ".text"
  | data => ".data"

/-- The section of a name. -/
def ofName? (name : String) : Option Section :=
  if name = text.name then some text
  else if name = data.name then some data
  else none

theorem ofName?_eq_some_iff {name : String} {s : Section} : ofName? name = some s ↔ name = s.name := by
  have hne : data.name ≠ text.name := by decide
  cases s with
  | text => by_cases h : name = text.name <;> simp [ofName?, h]
  | data =>
      by_cases h : name = data.name
      · simp [ofName?, h, hne]
      · by_cases h' : name = text.name <;> simp [ofName?, h, h', hne.symm]

end Section

/-- A labelled value, `symbol: value`. -/
structure Datum where
  /-- the label, without its colon -/
  symbol : Span
  /-- a bare word, or a quoted string with its quotes -/
  value : Span
  /-- where reading stood after the value -/
  line : Nat
  column : Nat
  deriving DecidableEq, Repr

/-- An instruction, `[label:] name operand*`. -/
structure Instruction where
  name : Span
  operands : List Span
  /-- the label, without its colon -/
  label : Option Span
  /-- where reading stood after the operands, the end of their line -/
  line : Nat
  column : Nat
  deriving DecidableEq, Repr

/-- The instruction can be jumped to by name. -/
def Instruction.isLabelled (i : Instruction) : Bool := i.label.isSome

/-- Data entries and instructions, each in source order. -/
structure Program where
  data : List Datum
  text : List Instruction
  deriving DecidableEq, Repr

namespace Program

/-- The program without entries. -/
def empty : Program := ⟨[], []⟩

instance : Inhabited Program := ⟨empty⟩

/-- The program has neither data nor instructions. -/
def isEmpty (p : Program) : Bool := p.data.isEmpty && p.text.isEmpty

/-- The program with one more data entry at its end. -/
def pushData (p : Program) (e : Datum) : Program := { p with data := p.data ++ [e] }

/-- The program with one more instruction at its end. -/
def pushInstruction (p : Program) (i : Instruction) : Program := { p with text := p.text ++ [i] }

end Program

end Mnemonic
