import Mnemonic.Machine.Pointer
import Mnemonic.Machine.ActionError

set_option autoImplicit false

/-!
# Values that the stock instructions work on

The stock instructions read values from operands, add to them and compare them with zero. Words are
read as decimal integers in their range; values are read by their own rules.
-/

namespace Mnemonic

/-- Why an operand is no value. -/
inductive TokenFault where
  /-- it spells none -/
  | invalid
  /-- it spells one that cannot be computed -/
  | overflow
  deriving DecidableEq, Repr

/-- The kinds of value that the stock instructions work on. -/
class HostValue (V : Type) extends HoldsPointer V where
  /-- the value that an operand spells -/
  ofToken : String → Except TokenFault V
  /-- the sum of a value and an integer -/
  add : V → Int64Word → Except ActionError V
  /-- the value is the integer zero -/
  isZero : V → Bool

/-- The sum of a word and an integer, if it is in the range. -/
def Word.add {r : WordRange} (w : Word r) (n : Int64Word) : Except ActionError (Word r) :=
  match Word.ofInt? (w.val + n.val) with
  | some sum => .ok sum
  | none => .error (.host "overflow")

instance Word.instHostValue (r : WordRange) : HostValue (Word r) where
  ofToken token :=
    match Literal.word? r 10 token.toList with
    | some w => .ok w
    | none => .error .invalid
  add := Word.add
  isZero w := w.val == 0

instance Value.instHostValue : HostValue Value where
  ofToken token :=
    match Value.ofOperand? token.toList with
    | some v => .ok v
    | none => .error .overflow
  add
    | .integer m, n => (Word.add m n).map .integer
    | v, _ => .error (.typeMismatch "integer" v.typeName)
  isZero
    | .integer n => n.val == 0
    | _ => false

end Mnemonic
