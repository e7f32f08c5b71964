import Mnemonic.Machine.Basic
import Mnemonic.Program.Lookup
import Mnemonic.Stock.HostValue

set_option autoImplicit false

/-!
# What stock instructions are made of

The stock instructions know the program and its text, for jumps to labels and for values in data
sections. Their host keeps what they emit, and a counter for each instruction name.

Some operands cannot be evaluated at all: a name to look up in a program whose spans do not fit its
text, and an integer whose negative does not exist. The host then notes that the instruction was
given up, besides its failure.
-/

namespace Mnemonic.Stock

/-- What an instruction emits. -/
inductive Emission (V : Type) where
  | words (ws : List String)
  | value (v : V)
  deriving Repr

/-- What the host of a machine keeps. -/
structure HostState (V : Type) where
  /-- what was emitted, the latest last -/
  emitted : List (Emission V)
  counters : NameMap Nat
  /-- an instruction was given up -/
  givenUp : Bool

namespace HostState

variable {V : Type}

/-- What a host keeps at the start. -/
def empty : HostState V := ⟨[], .empty, false⟩

/-- The host after handing out what was emitted. -/
def clearEmitted (h : HostState V) : HostState V := { h with emitted := [] }

end HostState

/-- The program that the instructions belong to, with its text. -/
structure Context where
  text : List Char
  program : Program

/-- A part of an action. -/
abbrev Act (V : Type) := EStateM ActionError (Workspace V (HostState V))

namespace Act

variable {V : Type}

/-- Gives the instruction up. -/
def giveUp {α : Type} : Act V α := do
  modify fun w => { w with host := { w.host with givenUp := true } }
  throw (.host "given up")

/-- The only operand. -/
def one (operands : List String) : Act V String :=
  match operands with
  | [a] => return a
  | _ => throw (.arityMismatch 1 operands.length)

/-- The only two operands. -/
def two (operands : List String) : Act V (String × String) :=
  match operands with
  | [a, b] => return (a, b)
  | _ => throw (.arityMismatch 2 operands.length)

/-- The value of a register, which has to exist. -/
def register (name : String) : Act V V := do
  match (← get).registers.get? name with
  | some v => return v
  | none => throw (.unknownRegister name)

/-- Sets a register, whether it exists or not. -/
def setRegister (name : String) (value : V) : Act V Unit :=
  modify fun w => { w with registers := w.registers.set name value }

/-- Removes a register. -/
def removeRegister (name : String) : Act V Unit :=
  modify fun w => { w with registers := w.registers.erase name }

/-- Puts a value on the stack. -/
def push (value : V) : Act V Unit :=
  modify fun w => { w with stack := value :: w.stack }

/-- Takes the top of the stack. -/
def pop : Act V V := do
  match (← get).stack with
  | [] => throw .stackUnderflow
  | v :: vs =>
      modify fun w => { w with stack := vs }
      return v

/-- Emits something. -/
def emit (e : Emission V) : Act V Unit :=
  modify fun w => { w with host := { w.host with emitted := w.host.emitted ++ [e] } }

/-- Counts one up the counter of an instruction name, and returns it. -/
def count (name : String) : Act V Nat := do
  let n := ((← get).host.counters.get? name).getD 0 + 1
  modify fun w => { w with host := { w.host with counters := w.host.counters.set name n } }
  return n

/-- The integer that an operand spells. -/
def int (operand : String) : Act V Int64Word :=
  match Literal.word? .int64 10 operand.toList with
  | some n => return n
  | none => throw (.invalidOperand operand)

variable [HostValue V]

/-- The value that an operand spells. -/
def token (operand : String) : Act V V :=
  match HostValue.ofToken operand with
  | .ok v => return v
  | .error .invalid => throw (.invalidOperand operand)
  | .error .overflow => giveUp

/-- Leaves a value in the instruction pointer. -/
def setPointer (value : V) : Act V Unit := setRegister pointerName value

/-- The pointer before the given one; the greatest comes before the least. -/
def pointerBefore (ip : Int64Word) : Int64Word :=
  (Word.ofInt? (ip.val - 1)).getD (.ofIntOrZero WordRange.int64.hi)

/-- The pointer to leave for a jump to the instruction that an operand names, by its label or by its
number. -/
def target (context : Context) (operand : String) : Act V V :=
  match context.program.labels context.text with
  | .error _ => giveUp
  | .ok labels =>
      match labels.get? operand with
      | some index => return HoldsPointer.ofPointer (.ofIntOrZero (index - 1))
      | none => return HoldsPointer.ofPointer (pointerBefore (← int operand))

/-- The text of the data entry of a symbol. -/
def dataText (context : Context) (symbol : String) : Act V String :=
  match context.program.data? context.text symbol with
  | .error _ => giveUp
  | .ok none => throw (.invalidOperand symbol)
  | .ok (some e) =>
      match e.value.slice context.text with
      | .error _ => giveUp
      | .ok text => return String.ofList text

end Act

end Mnemonic.Stock
