namespace EchoLang

-- A float as its bits. Constants are kept in this form, since a NaN has many bit patterns
-- and all of them are one value.
structure FloatBits where
  word : UInt32
deriving DecidableEq

namespace FloatBits

-- The number to compute with.
def value (x : FloatBits) : Float32 := .ofBits x.word

-- The result of a computation as a constant. A NaN gets the standard pattern.
def ofValue (x : Float32) : FloatBits := ⟨x.toBits⟩

-- Flips the sign, also that of a NaN.
def negate (x : FloatBits) : FloatBits := ⟨x.word ^^^ 0x80000000⟩

instance (n : Nat) : OfNat FloatBits n := ⟨ofValue (OfNat.ofNat n)⟩

end FloatBits

end EchoLang
