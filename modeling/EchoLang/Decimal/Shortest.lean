import EchoLang.Decimal.Basic

namespace EchoLang

-- The reals that round to a float form an interval. It reaches halfway to the
-- neighbours and holds its ends exactly when the significand is even.
def Decimal.readsBack (d : Decimal) (x : Binary) : Bool :=
  let low := if x.narrowBelow then 4 * x.significand - 1 else 4 * x.significand - 2
  let closed := x.significand % 2 = 0
  let below := d.compareScaled low (x.exponent - 2)
  let above := d.compareScaled (4 * x.significand + 2) (x.exponent - 2)
  (below = .gt || (closed && below = .eq)) && (above = .lt || (closed && above = .eq))

namespace Binary

-- How many whole units of `10 ^ e` fit into the number.
def floorAt (x : Binary) (e : Int) : Nat :=
  (x.significand * Nat.pow 2 x.exponent.toNat * Nat.pow 10 (-e).toNat) /
    (Nat.pow 2 (-x.exponent).toNat * Nat.pow 10 e.toNat)

-- The neighbour on the grid of multiples of `10 ^ e` that reads back. Of two
-- the nearer one counts, and of two that are equally near the larger one.
def neighbour? (x : Binary) (e : Int) : Option Decimal :=
  let low : Decimal := ⟨x.floorAt e, e⟩
  let high : Decimal := ⟨x.floorAt e + 1, e⟩
  let middle : Decimal := ⟨2 * x.floorAt e + 1, e⟩
  match low.readsBack x, high.readsBack x with
  | true, true =>
      some (if middle.compareScaled x.significand (x.exponent + 1) = .gt then low else high)
  | true, false => some low
  | false, true => some high
  | false, false => none

-- An exponent above that of every grid with a point near the number. The
-- factor is just below the decimal logarithm of two.
def coarsestGrid (x : Binary) : Int :=
  (x.significand.log2 + 1 + x.exponent) * 1233 / 4096 + 2

-- The number itself in decimal digits.
def exact (x : Binary) : Decimal :=
  if 0 ≤ x.exponent then
    ⟨x.significand * Nat.pow 2 x.exponent.toNat, 0⟩
  else
    ⟨x.significand * Nat.pow 5 (-x.exponent).toNat, x.exponent⟩

-- The coarsest grid with a hit gives the fewest digits. Nine digits always
-- reach, so fifteen grids are more than are ever searched.
def shortest (x : Binary) : Decimal :=
  ((List.range 15).findSome? fun (k : Nat) => x.neighbour? (x.coarsestGrid - k)).getD x.exact

end Binary

end EchoLang
