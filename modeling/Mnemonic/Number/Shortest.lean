import Mnemonic.Number.Decimal

set_option autoImplicit false

/-!
# Shortest decimals

Which decimal stands for a number that is known up to a rounding interval only. Of all decimals in
the interval those with the fewest digits come first, that is those on the coarsest grid of a power
of ten; of two neighbours on that grid the nearer one is taken, and the upper one of two equally
near. Everything is exact arithmetic on naturals.
-/

namespace Mnemonic.Shortest

/-- A positive number `value / scale` and the ends of its rounding interval, in the same scale. The
ends belong to the interval if `closed`. -/
structure Interval where
  lower : Nat
  value : Nat
  upper : Nat
  scale : Nat
  closed : Bool
  deriving Repr

/-- The interval in units of a power of ten: numerators, and the common denominator. -/
def Interval.inUnits (i : Interval) (exponent : Int) : Interval :=
  let up := Nat.pow 10 (-exponent).toNat
  { i with
    lower := i.lower * up
    value := i.value * up
    upper := i.upper * up
    scale := i.scale * Nat.pow 10 exponent.toNat }

/-- The number of units next to the value that lies in the interval, if one of its two neighbours
does. -/
def Interval.neighbour? (i : Interval) : Option Nat :=
  let below := i.value / i.scale
  let above := below + 1
  let belowFits := i.lower < below * i.scale || (i.closed && i.lower == below * i.scale)
  let aboveFits := above * i.scale < i.upper || (i.closed && above * i.scale == i.upper)
  if belowFits && aboveFits then
    if 2 * (i.value - below * i.scale) < i.scale then some below else some above
  else if belowFits then some below
  else if aboveFits then some above
  else none

/-- Goes through the grids from the given power of ten downward to the first one that has a point in
the interval. On the last grid it takes the point below the value. -/
def search (i : Interval) : Nat → Int → Decimal
  | 0, exponent =>
      let units := i.inUnits exponent
      ⟨units.value / units.scale, exponent⟩
  | steps + 1, exponent =>
      match (i.inUnits exponent).neighbour? with
      | some n => ⟨n, exponent⟩
      | none => search i steps (exponent - 1)

/-- The shortest decimal of an interval whose value lies between `10 ^ (-lowest)` and `10 ^ highest`. -/
def select (i : Interval) (highest lowest : Nat) : Decimal :=
  search i (highest + lowest + 1) highest

end Mnemonic.Shortest
