import Mnemonic.Machine.Pointer
import Mnemonic.Machine.ActionError
import Mnemonic.NameMap
import Mnemonic.Reader.Session

set_option autoImplicit false

/-!
# Machines

A machine runs the instructions of a program. Its host decides what the instructions do: an
instruction set gives the registers that a machine starts with and an action for each instruction
name. An action works on a workspace, which is the registers, the stack, and whatever else the host
keeps (`σ`, which is also where an action's output goes). An action that fails has changed the
workspace all the same.

A new machine is idle, its instruction pointer is zero, and it remembers the registers that it starts
with as its baseline.
-/

namespace Mnemonic

/-- The name of the register that holds the instruction pointer. -/
def pointerName : String := "ip"

/-- What the actions of a machine work on. -/
structure Workspace (V σ : Type) where
  registers : NameMap V
  /-- the top of the stack comes first -/
  stack : List V
  host : σ

/-- What an instruction does with its operands, which it gets as they are written. -/
abbrev Action (V σ : Type) := List String → EStateM ActionError (Workspace V σ) Unit

/-- The registers that a machine starts with and the action of each instruction name. -/
structure InstructionSet (V σ : Type) where
  registers : NameMap V
  actions : NameMap (Action V σ)

namespace InstructionSet

variable {V σ : Type}

/-- The instruction set with neither registers nor instructions. -/
def empty : InstructionSet V σ := ⟨.empty, .empty⟩

/-- Defines a register, in the stead of an earlier one of the name. -/
def defineRegister (s : InstructionSet V σ) (name : String) (value : V) : InstructionSet V σ :=
  { s with registers := s.registers.set name value }

/-- Defines an instruction, in the stead of an earlier one of the name. -/
def defineInstruction (s : InstructionSet V σ) (name : String) (action : Action V σ) :
    InstructionSet V σ :=
  { s with actions := s.actions.set name action }

/-- The instruction set has an instruction of the name. -/
def hasInstruction (s : InstructionSet V σ) (name : String) : Bool := s.actions.contains name

end InstructionSet

/-- How fast a machine runs, and for how long. -/
structure Config where
  /-- nanoseconds between two ticks -/
  interval : Nat
  /-- how many steps may be made between two resets, if there is a limit -/
  maxSteps : Option Nat
  deriving DecidableEq, Repr

namespace Config

/-- A second has so many nanoseconds. -/
def second : Nat := 1000000000

/-- One tick a second, without a limit. -/
def standard : Config := ⟨second, none⟩

/-- So many ticks a second, one at least, without a limit. -/
def ofSpeed (ticksPerSecond : Nat) : Config := ⟨second / max ticksPerSecond 1, none⟩

end Config

/-- A machine over a program. -/
structure Machine (V σ : Type) where
  source : String
  program : Program
  workspace : Workspace V σ
  /-- the registers at the start, which a reset goes back to -/
  baseline : NameMap V
  actions : NameMap (Action V σ)
  running : Bool
  config : Config
  /-- steps made since the last reset, counted exactly -/
  steps : Nat

namespace Machine

variable {V σ : Type}

section Building

variable [HoldsPointer V]

/-- An idle machine over a program that was read from the source. Whatever the instruction set says of
the instruction pointer, it starts at zero. -/
def ofProgram (source : String) (program : Program) (set : InstructionSet V σ) (config : Config)
    (host : σ) : Machine V σ :=
  let registers := set.registers.set pointerName (HoldsPointer.ofPointer .zero)
  { source, program
    workspace := ⟨registers, [], host⟩
    baseline := registers
    actions := set.actions
    running := false
    config
    steps := 0 }

/-- An idle machine over the program of a source. -/
def ofSource (source : String) (set : InstructionSet V σ) (config : Config) (host : σ) :
    Except SyntaxError (Machine V σ) :=
  (Program.read source).map fun program => ofProgram source program set config host

/-- The instruction that is due, by number, if the instruction pointer is an integer. -/
def pointer? (m : Machine V σ) : Option Int64Word :=
  (m.workspace.registers.get? pointerName).bind HoldsPointer.pointer?

end Building

/-! ## Control -/

/-- Ticks take effect from now on. -/
def execute (m : Machine V σ) : Machine V σ := { m with running := true }

/-- Ticks have no effect any more. -/
def stop (m : Machine V σ) : Machine V σ := { m with running := false }

/-- Stops and goes back to the start; only what the host keeps stays. -/
def reset (m : Machine V σ) : Machine V σ :=
  { m with
    workspace := { m.workspace with registers := m.baseline, stack := [] }
    running := false
    steps := 0 }

/-- Sets a register from outside. -/
def setRegister (m : Machine V σ) (name : String) (value : V) : Machine V σ :=
  { m with
    workspace := { m.workspace with registers := m.workspace.registers.set name value } }

/-- Removes a register from outside. -/
def removeRegister (m : Machine V σ) (name : String) : Machine V σ :=
  { m with
    workspace := { m.workspace with registers := m.workspace.registers.erase name } }

end Machine

end Mnemonic
