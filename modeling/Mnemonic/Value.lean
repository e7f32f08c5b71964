import Mnemonic.Number.Binary64

set_option autoImplicit false

/-!
# Values

The values of a machine whose host brings no type of its own: integers, floating-point numbers,
strings and truth values. They are read from operands, and printed, by one fixed set of rules.

Reading tries the spellings in order: an integer in sixteens behind `0x`, an integer in tens, a
decimal, a truth value; what is none of these is a string. A minus sign may stand before the `0x`, and
a sign of its own may stand behind it; together they can negate the least integer, which has no
negative. Reading has no answer then.
-/

namespace Mnemonic

/-- A value of a register, of the stack, or of an operand. -/
inductive Value where
  | integer (n : Int64Word)
  | float (x : Binary64)
  | string (s : String)
  | bool (b : Bool)
  deriving DecidableEq, Repr

namespace Value

/-- The name of a value's type. -/
def typeName : Value → String
  | integer _ => "integer"
  | float _ => "float"
  | string _ => "string"
  | bool _ => "bool"

/-- The text of a value. -/
def text : Value → String
  | integer n => toString n.val
  | float x => x.text
  | string s => s
  | bool b => if b then "true" else "false"

/-- Equality of values; floating-point numbers are compared as numbers. -/
def equal : Value → Value → Bool
  | integer m, integer n => m == n
  | float x, float y => x.equal y
  | string s, string t => s == t
  | bool a, bool b => a == b
  | _, _ => false

/-! ## Reading operands -/

/-- An operand without the minus sign in front, and whether there was one. -/
def splitMinus : List Char → Bool × List Char
  | '-' :: cs => (true, cs)
  | cs => (false, cs)

/-- What stands behind `0x` or `0X`. -/
def afterHexMark? : List Char → Option (List Char)
  | '0' :: x :: cs => if x = 'x' ∨ x = 'X' then some cs else none
  | _ => none

/-- The integer behind `0x`, and whether a minus sign stands in front of it all. -/
def hexLiteral? (operand : List Char) : Option (Bool × Int64Word) :=
  let (negative, rest) := splitMinus operand
  ((afterHexMark? rest).bind (Literal.word? .int64 16)).map fun n => (negative, n)

/-- The number of a decimal that starts with a digit, behind an optional minus sign. -/
def floatLiteral? (operand : List Char) : Option Binary64 :=
  let (negative, rest) := splitMinus operand
  (Literal.decimal? rest).map (Binary64.ofDecimal negative)

/-- The value of an operand that is no integer. -/
def ofNonInteger (operand : List Char) : Value :=
  match floatLiteral? operand with
  | some x => float x
  | none =>
      if operand = "true".toList then bool true
      else if operand = "false".toList then bool false
      else string (String.ofList operand)

/-- The value of an operand. There is none only for the negation of the least integer. -/
def ofOperand? (operand : List Char) : Option Value :=
  match hexLiteral? operand with
  | some (true, n) => (Word.ofInt? (-n.val)).map integer
  | some (false, n) => some (integer n)
  | none =>
      match Literal.word? .int64 10 operand with
      | some n => some (integer n)
      | none => some (ofNonInteger operand)

end Value

end Mnemonic
