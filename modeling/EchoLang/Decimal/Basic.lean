namespace EchoLang

-- The number `coefficient * 10 ^ exponent`.
structure Decimal where
  coefficient : Nat
  exponent : Int
deriving DecidableEq

-- The number `significand * 2 ^ exponent`, as a 32-bit float stores it.
structure Binary where
  significand : Nat
  exponent : Int
  -- the gap to the next smaller float is half the gap to the next larger one
  narrowBelow : Bool
deriving DecidableEq

-- The magnitude of a finite float. A biased exponent of zero marks the
-- subnormal numbers, which lack the leading bit.
def Binary.ofFloat32 (x : Float32) : Binary :=
  let bits := x.toBits.toNat % 0x80000000
  let fraction := bits % 0x800000
  let biased := bits / 0x800000
  if biased = 0 then
    ⟨fraction, -149, false⟩
  else
    ⟨0x800000 + fraction, (biased : Int) - 150, fraction = 0 && 1 < biased⟩

-- Compares a decimal with `n * 2 ^ e`. Both sides are multiplied by the same
-- powers, so that only natural numbers remain.
def Decimal.compareScaled (d : Decimal) (n : Nat) (e : Int) : Ordering :=
  compare (d.coefficient * Nat.pow 10 d.exponent.toNat * Nat.pow 2 (-e).toNat)
    (n * Nat.pow 2 e.toNat * Nat.pow 10 (-d.exponent).toNat)

end EchoLang
