import Mnemonic.Number.Literal
import Mnemonic.Number.Shortest

set_option autoImplicit false

/-!
# Binary floating-point numbers of 64 bits

A number is kept as its bits, so every pattern is told apart from every other, the many that are not
numbers included. Comparing two numbers is another matter: as numbers the two zeros are equal, and
what is not a number equals nothing.

Reading rounds an exact decimal to the nearest number, to the even one of two equally near. Writing
takes the shortest decimal that rounds to the number, without an exponent.
-/

namespace Mnemonic

/-- The bits of a binary floating-point number: sign, eleven of exponent, fifty-two of fraction. -/
structure Binary64 where
  bits : UInt64
  deriving DecidableEq, Repr, Inhabited

namespace Binary64

/-- What a pattern of bits stands for. -/
inductive Meaning where
  /-- not a number -/
  | nan
  /-- too large in absolute value -/
  | infinity (negative : Bool)
  /-- the number `significand * 2 ^ exponent`, with a sign -/
  | finite (negative : Bool) (significand : Nat) (exponent : Int)
  deriving DecidableEq, Repr

/-- The smallest significand of a number with an implicit leading bit, the power of two above the
fraction. -/
def hiddenBit : Nat := 0x10000000000000

/-- The bit of the sign. -/
def signBit : Nat := 0x8000000000000000

/-- The exponent of the numbers next to zero. -/
def leastExponent : Int := -1074

/-- The bits of positive infinity; larger patterns of a positive sign are not numbers. -/
def infinityBits : Nat := 2047 * hiddenBit

/-- The number is below zero, or the negative zero. -/
def isNegative (x : Binary64) : Bool := signBit ≤ x.bits.toNat

/-- The bits without the sign. -/
def magnitude (x : Binary64) : Nat := x.bits.toNat % signBit

/-- What the bits stand for. -/
def meaning (x : Binary64) : Meaning :=
  let m := x.magnitude
  if infinityBits < m then .nan
  else if m = infinityBits then .infinity x.isNegative
  else if m < hiddenBit then .finite x.isNegative m leastExponent
  else .finite x.isNegative (m % hiddenBit + hiddenBit) (leastExponent + (m / hiddenBit - 1 : Nat))

/-- The number of a sign and a magnitude. -/
def ofMagnitude (negative : Bool) (m : Nat) : Binary64 :=
  ⟨UInt64.ofNat (if negative then signBit + m else m)⟩

/-- Equality of numbers. -/
def equal (x y : Binary64) : Bool :=
  x.magnitude ≤ infinityBits && y.magnitude ≤ infinityBits &&
    (x.bits == y.bits || (x.magnitude == 0 && y.magnitude == 0))

/-! ## Reading -/

/-- The quotient rounded to the nearest natural, to the even one of two equally near. -/
def roundHalfEven (num den : Nat) : Nat :=
  let below := num / den
  let twice := 2 * (num % den)
  if twice < den then below
  else if den < twice then below + 1
  else if below % 2 = 0 then below
  else below + 1

/-- The power of two at or next below a positive quotient. -/
def binaryExponent (num den : Nat) : Int :=
  let guess : Int := num.log2 - den.log2
  if den <<< guess.toNat ≤ num <<< (-guess).toNat then guess else guess - 1

/-- The magnitude nearest to a positive quotient. A significand that rounds up to the next power of
two carries into the exponent by itself, since the exponent's bits follow it. -/
def nearestMagnitude (num den : Nat) : Nat :=
  let exponent := max (binaryExponent num den - 52) leastExponent
  let significand := roundHalfEven (num <<< (-exponent).toNat) (den <<< exponent.toNat)
  min infinityBits ((exponent - leastExponent).toNat * hiddenBit + significand)

/-- The number nearest to a decimal. Exponents far beyond those of any number are not multiplied
out. -/
def ofDecimal (negative : Bool) (d : Decimal) : Binary64 :=
  if d.digits = 0 ∨ d.leading < -400 then ofMagnitude negative 0
  else if 400 < d.leading then ofMagnitude negative infinityBits
  else ofMagnitude negative
    (nearestMagnitude (d.digits * Nat.pow 10 d.exponent.toNat) (Nat.pow 10 (-d.exponent).toNat))

/-! ## Writing -/

/-- The numbers that round to a positive number, in quarters of its last binary place. At a power of
two the number below is nearer than the one above; an even significand wins the ends. -/
def roundingInterval (significand : Nat) (exponent : Int) : Shortest.Interval :=
  let up := (exponent - 2).toNat
  { lower := (4 * significand - if significand = hiddenBit then 1 else 2) <<< up
    value := (4 * significand) <<< up
    upper := (4 * significand + 2) <<< up
    scale := 1 <<< (2 - exponent).toNat
    closed := significand % 2 == 0 }

/-- The text of a number. -/
def text (x : Binary64) : String :=
  match x.meaning with
  | .nan => "NaN"
  | .infinity negative => if negative then "-inf" else "inf"
  | .finite negative significand exponent =>
      let sign := if negative then ['-'] else []
      let digits :=
        if significand = 0 then ['0']
        else (Shortest.select (roundingInterval significand exponent) 309 324).positional
      String.ofList (sign ++ digits)

example : (ofDecimal false ⟨1, -1⟩).bits = 0x3fb999999999999a := by decide +kernel
example : (⟨0x3fb999999999999a⟩ : Binary64).text = "0.1" := by decide +kernel
example : (⟨0xc1fe6b623c2f5c29⟩ : Binary64).text = "-8165663682.96" := by decide +kernel
example : (⟨0x3e60000000000000⟩ : Binary64).text = "0.000000029802322387695313" := by decide +kernel

end Binary64

end Mnemonic
