import Mnemonic.Stock.Act

set_option autoImplicit false

/-!
# The stock instructions

A collection of instructions to build instruction sets from. Operands are evaluated from left to
right, after their number is checked, and what was done before an instruction fails stays done.
-/

namespace Mnemonic.Stock

/-- The kinds of stock instruction. -/
inductive Kind where
  /-- does nothing -/
  | nop
  /-- sets an existing register -/
  | mov
  /-- sets a register -/
  | define
  /-- removes an existing register -/
  | delete
  /-- adds an integer to a register -/
  | add
  /-- puts a value on the stack -/
  | push
  /-- takes a value from the stack into an existing register -/
  | pop
  /-- goes on at a target -/
  | jump
  /-- goes on at a target if a register is not zero -/
  | jumpNonzero
  /-- sets the instruction pointer -/
  | setPointer
  /-- sets a register to the value of a data entry -/
  | load
  /-- emits its operands -/
  | out
  /-- emits the value of a register -/
  | display
  /-- fails with its operands as the message -/
  | fail
  /-- puts on the stack how often it ran -/
  | count
  /-- puts a value on the stack and into a register, and then fails -/
  | pushFail
  deriving DecidableEq, Repr

namespace Kind

/-- The kind of a name. Names of no kind do nothing. -/
def ofName : String → Kind
  | "mov" => mov
  | "def" => define
  | "del" => delete
  | "add" => add
  | "push" => push
  | "pop" => pop
  | "jmp" => jump
  | "jnz" => jumpNonzero
  | "setip" => setPointer
  | "load" => load
  | "out" => out
  | "show" => display
  | "fail" => fail
  | "count" => count
  | "pushfail" => pushFail
  | _ => nop

open Act

variable {V : Type} [HostValue V]

/-- What an instruction of a kind does, in a program and under the name that it is defined by. -/
def action (context : Context) (name : String) : Kind → Action V (HostState V)
  | nop, _ => return ()
  | mov, operands => do
      let (r, t) ← two operands
      let _ ← register r
      setRegister r (← token t)
  | define, operands => do
      let (r, t) ← two operands
      setRegister r (← token t)
  | delete, operands => do
      let r ← one operands
      let _ ← register r
      removeRegister r
  | add, operands => do
      let (r, t) ← two operands
      let v ← register r
      let n ← int t
      match HostValue.add v n with
      | .ok sum => setRegister r sum
      | .error e => throw e
  | push, operands => do
      let t ← one operands
      Act.push (← token t)
  | pop, operands => do
      let r ← one operands
      let v ← Act.pop
      let _ ← register r
      setRegister r v
  | jump, operands => do
      let t ← one operands
      Act.setPointer (← target context t)
  | jumpNonzero, operands => do
      let (r, t) ← two operands
      let destination ← target context t
      let v ← register r
      if HostValue.isZero v then return () else Act.setPointer destination
  | setPointer, operands => do
      let t ← one operands
      Act.setPointer (← token t)
  | load, operands => do
      let (r, s) ← two operands
      let text ← dataText context s
      setRegister r (← token text)
  | out, operands => emit (.words operands)
  | display, operands => do
      let r ← one operands
      emit (.value (← register r))
  | fail, operands => throw (.host (" ".intercalate operands))
  | count, _ => do
      let n ← Act.count name
      Act.push (HoldsPointer.ofPointer (.ofIntOrZero n))
  | pushFail, operands => do
      let t ← one operands
      let v ← token t
      Act.push v
      setRegister "last" v
      throw (.host "partial")

end Kind

/-- The instruction set of registers and instructions, both defined in order. -/
def instructionSet {V : Type} [HostValue V] (context : Context) (registers : List (String × V))
    (instructions : List (String × Kind)) : InstructionSet V (HostState V) :=
  instructions.foldl
    (fun set d => set.defineInstruction d.1 (d.2.action context d.1))
    ⟨.ofList registers, .empty⟩

end Mnemonic.Stock
