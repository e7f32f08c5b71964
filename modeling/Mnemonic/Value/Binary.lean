import Mnemonic.Value
import Mnemonic.Wire.Varint

set_option autoImplicit false

/-!
# The binary form of values

A value is written as the number of its type and then its content: an integer as a signed number of
variable length, a floating-point number as its eight bytes, a string with its length, a truth value
as a byte.
-/

namespace Mnemonic.Value

open Wire

/-- Reads the content of a value of the type with the given number. -/
def decodeContent : Nat → Decoder Value
  | 0 => (int64.iso integer fun _ => .zero).decode
  | 1 => (word64.iso (fun w => float ⟨w⟩) fun _ => 0).decode
  | 2 => (Wire.string.iso string fun _ => "").decode
  | 3 => (Wire.bool.iso bool fun _ => false).decode
  | _ => fun _ => .error .unknownVariant

/-- A value is written as the number of its type, then its content. -/
def codec : Codec Value where
  encode
    | integer n => tag32.encode 0 ++ int64.encode n
    | float x => tag32.encode 1 ++ word64.encode x.bits
    | string s => tag32.encode 2 ++ Wire.string.encode s
    | bool b => tag32.encode 3 ++ Wire.bool.encode b
  decode bs :=
    match tag32.decode bs with
    | .error e => .error e
    | .ok (tag, bs) => decodeContent tag bs

end Mnemonic.Value
