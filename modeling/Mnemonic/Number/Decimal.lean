set_option autoImplicit false

/-!
# Decimals

A natural number times a power of ten, and its text without an exponent.
-/

namespace Mnemonic

/-- The number `digits * 10 ^ exponent`. -/
structure Decimal where
  digits : Nat
  exponent : Int
  deriving DecidableEq, Repr

namespace Decimal

/-- The decimal written without an exponent, with as many zeros as that takes. -/
def positional (d : Decimal) : List Char :=
  let text := Nat.toDigits 10 d.digits
  let places := (-d.exponent).toNat
  if places = 0 then
    text ++ List.replicate d.exponent.toNat '0'
  else if places < text.length then
    text.take (text.length - places) ++ '.' :: text.drop (text.length - places)
  else
    '0' :: '.' :: List.replicate (places - text.length) '0' ++ text

/-- The power of ten above the leading digit, counted in digits. -/
def leading (d : Decimal) : Int := (Nat.toDigits 10 d.digits).length + d.exponent

example : (⟨123, -2⟩ : Decimal).positional = "1.23".toList := by decide
example : (⟨123, -4⟩ : Decimal).positional = "0.0123".toList := by decide
example : (⟨123, 2⟩ : Decimal).positional = "12300".toList := by decide

end Decimal

end Mnemonic
