set_option autoImplicit false

/-!
# Errors of running instructions

Why an instruction fails, and how that is worded. A host adds causes of its own as plain messages.
-/

namespace Mnemonic

/-- Why an instruction fails. -/
inductive ActionError where
  /-- a value was taken from the empty stack -/
  | stackUnderflow
  /-- no register has the name -/
  | unknownRegister (name : String)
  /-- the operand does not mean anything here -/
  | invalidOperand (operand : String)
  /-- there are too many or too few operands -/
  | arityMismatch (expected got : Nat)
  /-- the value is of another type -/
  | typeMismatch (expected got : String)
  /-- the instruction set has no instruction of the name -/
  | undefinedInstruction (name : String)
  /-- the instruction left something else than an integer in the instruction pointer -/
  | pointerNotInteger
  /-- a cause of the host's own -/
  | host (message : String)
  deriving DecidableEq, Repr

/-- The wording of the error. -/
def ActionError.message : ActionError → String
  | stackUnderflow => "stack underflow"
  | unknownRegister name => s!"unknown register '{name}'"
  | invalidOperand operand => s!"invalid operand '{operand}'"
  | arityMismatch expected got => s!"expected {expected} operand(s), got {got}"
  | typeMismatch expected got => s!"type error: expected {expected}, got {got}"
  | undefinedInstruction name => s!"instruction '{name}' is not defined"
  | pointerNotInteger => "instruction pointer is not an integer"
  | host message => message

end Mnemonic
