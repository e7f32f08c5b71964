import Mnemonic.Machine.Basic

set_option autoImplicit false

/-!
# Steps

A step fetches the instruction that the instruction pointer points to, runs its action, and moves the
pointer one on from wherever the action left it. An action therefore jumps to instruction `t` by
leaving `t - 1`.

Nothing that goes wrong leaves a step: it is reported as a trap, and the machine goes idle with its
registers and its stack as they are at that moment. Running past the last instruction is reported as
the finish of the program, and resets the machine.

The steps are counted in a 64-bit word. A step counts exactly, which is what shows on a host whose
arithmetic wraps around: a step limit is a word too and stops the machine in time, and without a limit
nothing looks at the count. A host that checks its arithmetic is brought down by a step that the word
cannot count; which one that is, `overflows` says.
-/

namespace Mnemonic

/-- What goes wrong in a step. -/
inductive Trap where
  /-- no step is left before the next reset -/
  | stepLimit (limit : Nat)
  /-- there is no instruction pointer, or it is no integer -/
  | pointerNotInteger
  /-- the instruction pointer is negative -/
  | pointerOutOfRange (ip : Int)
  /-- the spans of the instruction do not fit the source -/
  | sourceMismatch (line column : Nat)
  /-- the instruction set has no such instruction -/
  | illegalInstruction (name : String) (line column : Nat)
  /-- the action failed -/
  | failedInstruction (name : String) (line column : Nat) (error : ActionError)
  deriving DecidableEq, Repr

/-- The wording of a trap. -/
def Trap.message : Trap → String
  | stepLimit limit => s!"execution step limit exceeded ({limit})"
  | pointerNotInteger => "instruction pointer is not an integer"
  | pointerOutOfRange ip => s!"instruction pointer out of range: {ip}"
  | sourceMismatch line column =>
      s!"Instruction at {line}:{column} does not match the program source"
  | illegalInstruction name line column => s!"Illegal instruction: {name} at {line}:{column}"
  | failedInstruction name line column error =>
      s!"Instruction {name} execution error at {line}:{column}: {error.message}"

/-- What a machine reports. -/
inductive Event where
  | trap (t : Trap)
  | finish
  deriving DecidableEq, Repr

/-- The instruction pointer one further on; the greatest one stays where it is. -/
def nextPointer (ip : Int64Word) : Int64Word := (Word.ofInt? (ip.val + 1)).getD ip

theorem val_nextPointer (ip : Int64Word) :
    (nextPointer ip).val = min (ip.val + 1) WordRange.int64.hi := by
  have hlo := ip.lo_le
  have hhi := ip.le_hi
  unfold nextPointer
  cases h : (Word.ofInt? (ip.val + 1) : Option Int64Word) with
  | none =>
      rw [Word.ofInt?_eq_none_iff] at h
      simp only [Option.getD_none]
      omega
  | some w =>
      have hw := Word.ofInt?_eq_some_iff.1 h
      have := w.le_hi
      simp only [Option.getD_some]
      omega

namespace Machine

variable {V σ : Type}

/-- The step limit, if it is reached. -/
def reachedLimit? (m : Machine V σ) : Option Nat := m.config.maxSteps.filter (· ≤ m.steps)

/-- The machine with one more step made. -/
def counted (m : Machine V σ) : Machine V σ := { m with steps := m.steps + 1 }

/-- The step that is due is allowed, and one more than the steps that were made is no 64-bit word. -/
def overflows (m : Machine V σ) : Bool :=
  m.reachedLimit?.isNone && (Word.ofInt? (m.steps + 1) : Option (Word .uint64)).isNone

/-- Reports a trap and stops. -/
def fault (m : Machine V σ) (t : Trap) : Machine V σ × List Event := (m.stop, [.trap t])

/-- The name and the operands of an instruction as they are written, if the spans fit the source. -/
def fetch? (m : Machine V σ) (i : Instruction) : Option (String × List String) := do
  let source := m.source.toList
  let name ← i.name.slice? source
  let operands ← i.operands.mapM (·.slice? source)
  return (String.ofList name, operands.map String.ofList)

variable [HoldsPointer V]

/-- Runs an action and then moves the instruction pointer on. -/
def runAction (m : Machine V σ) (i : Instruction) (name : String) (operands : List String)
    (action : Action V σ) : Machine V σ × List Event :=
  match action operands m.workspace with
  | .error e workspace =>
      { m with workspace }.fault (.failedInstruction name i.line i.column e)
  | .ok _ workspace =>
      let m := { m with workspace }
      match m.pointer? with
      | none => m.fault (.failedInstruction name i.line i.column .pointerNotInteger)
      | some ip => (m.setRegister pointerName (HoldsPointer.ofPointer (nextPointer ip)), [])

/-- Runs the action of an instruction name; a name without one is reported twice, as illegal and as
having failed. -/
def dispatch (m : Machine V σ) (i : Instruction) (name : String) (operands : List String) :
    Machine V σ × List Event :=
  match m.actions.get? name with
  | some action => m.runAction i name operands action
  | none =>
      (m.stop, [.trap (.illegalInstruction name i.line i.column),
        .trap (.failedInstruction name i.line i.column (.undefinedInstruction name))])

/-- Runs an instruction, if its spans fit the source. -/
def perform (m : Machine V σ) (i : Instruction) : Machine V σ × List Event :=
  match m.fetch? i with
  | none => m.fault (.sourceMismatch i.line i.column)
  | some (name, operands) => m.dispatch i name operands

/-- Runs the instruction of a number, or finishes the program if it has no such instruction. -/
def performAt (m : Machine V σ) (n : Nat) : Machine V σ × List Event :=
  match m.program.text[n]? with
  | none => (m.reset, [.finish])
  | some i => m.perform i

/-- Runs the instruction that the instruction pointer points to. -/
def runInstruction (m : Machine V σ) : Machine V σ × List Event :=
  match m.pointer? with
  | none => m.fault .pointerNotInteger
  | some ip =>
      if ip.val < 0 then m.fault (.pointerOutOfRange ip.val) else m.performAt ip.val.toNat

/-- Makes one step, whether the machine is running or not. -/
def step (m : Machine V σ) : Machine V σ × List Event :=
  match m.reachedLimit? with
  | some limit => m.fault (.stepLimit limit)
  | none => m.counted.runInstruction

/-- Makes one step if the machine is running. -/
def tick (m : Machine V σ) : Machine V σ × List Event := if m.running then m.step else (m, [])

/-- Does something a number of times and collects what is reported. -/
def times (act : Machine V σ → Machine V σ × List Event) :
    Nat → Machine V σ → Machine V σ × List Event
  | 0, m => (m, [])
  | n + 1, m =>
      let (m, events) := act m
      let (m, later) := times act n m
      (m, events ++ later)

end Machine

end Mnemonic
