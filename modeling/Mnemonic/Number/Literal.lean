import Mnemonic.Number.Decimal
import Mnemonic.Number.Word

set_option autoImplicit false

/-!
# Number literals

How numbers are spelled: naturals as digits of a radix, integers as naturals behind an optional sign,
and decimals with a fraction and a power of ten. A decimal is read into exact integers; rounding it is
somebody else's business.

Main statement: appending a digit to a natural multiplies by the radix and adds the digit
(`naturalFrom_append`).
-/

namespace Mnemonic.Literal

/-- The value of a digit, letters of either case going on behind the nine. -/
def digit? (radix : Nat) (c : Char) : Option Nat :=
  let value? : Option Nat :=
    if '0' ≤ c ∧ c ≤ '9' then some (c.toNat - '0'.toNat)
    else if 'a' ≤ c ∧ c ≤ 'z' then some (c.toNat - 'a'.toNat + 10)
    else if 'A' ≤ c ∧ c ≤ 'Z' then some (c.toNat - 'A'.toNat + 10)
    else none
  value?.filter (· < radix)

/-- The number that is spelled by the digits behind those of `start`. -/
def naturalFrom (radix start : Nat) : List Char → Option Nat
  | [] => some start
  | c :: cs =>
      match digit? radix c with
      | none => none
      | some d => naturalFrom radix (start * radix + d) cs

/-- The number that is spelled by one or more digits. -/
def natural? (radix : Nat) (cs : List Char) : Option Nat :=
  if cs.isEmpty then none else naturalFrom radix 0 cs

/-- The integer that is spelled by digits behind an optional sign. Where there are no negative
integers there is no minus sign either. -/
def integer? (signed : Bool) (radix : Nat) : List Char → Option Int
  | '+' :: cs => (natural? radix cs).map Int.ofNat
  | '-' :: cs => if signed then (natural? radix cs).map fun n => -Int.ofNat n else none
  | cs => (natural? radix cs).map Int.ofNat

/-- The word that is spelled, if the integer is in the range. -/
def word? (r : WordRange) (radix : Nat) (cs : List Char) : Option (Word r) :=
  (integer? r.isSigned radix cs).bind Word.ofInt?

theorem naturalFrom_append (radix start : Nat) (cs ds : List Char) :
    naturalFrom radix start (cs ++ ds) =
      (naturalFrom radix start cs).bind fun n => naturalFrom radix n ds := by
  induction cs generalizing start with
  | nil => rfl
  | cons c cs ih =>
      simp only [List.cons_append, naturalFrom]
      cases digit? radix c with
      | none => rfl
      | some d => exact ih _

/-- The exponent behind the digits: none at all, or a letter, an optional sign and digits. -/
def exponent? : List Char → Option Int
  | [] => some 0
  | c :: cs => if c = 'e' ∨ c = 'E' then integer? true 10 cs else none

/-- A decimal: digits, then perhaps a point with or without digits behind it, then perhaps an
exponent. -/
def decimal? (cs : List Char) : Option Decimal :=
  let whole := cs.takeWhile Char.isDigit
  let rest := cs.dropWhile Char.isDigit
  let fraction := match rest with
    | '.' :: cs => cs.takeWhile Char.isDigit
    | _ => []
  let rest := match rest with
    | '.' :: cs => cs.dropWhile Char.isDigit
    | cs => cs
  match natural? 10 whole, naturalFrom 10 0 (whole ++ fraction), exponent? rest with
  | some _, some digits, some exponent => some ⟨digits, exponent - fraction.length⟩
  | _, _, _ => none

end Mnemonic.Literal
