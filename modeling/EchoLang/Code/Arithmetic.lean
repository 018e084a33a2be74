namespace EchoLang

-- Folding constants and running code use the same arithmetic.
inductive FloatOp where
  | add
  | sub
  | mul
  | div
deriving DecidableEq

def FloatOp.apply : FloatOp → Float32 → Float32 → Float32
  | add, a, b => a + b
  | sub, a, b => a - b
  | mul, a, b => a * b
  | div, a, b => a / b

inductive FloatTest where
  | lt
  | gt
  | le
  | ge
  | eq
  | ne
deriving DecidableEq

-- The order of floats, in which a NaN is unequal to every number.
def FloatTest.holds : FloatTest → Float32 → Float32 → Bool
  | lt, a, b => a < b
  | gt, a, b => b < a
  | le, a, b => a ≤ b
  | ge, a, b => b ≤ a
  | eq, a, b => a == b
  | ne, a, b => a != b

-- Truth as an integer.
def flag (b : Bool) : Int32 :=
  if b then 1 else 0

inductive IntOp where
  | shl
  | shr
  | and
  | or
  | ne
deriving DecidableEq

-- Shifts take their amount modulo 32. The one to the right keeps the sign.
def IntOp.apply : IntOp → Int32 → Int32 → Int32
  | shl, a, b => a <<< b
  | shr, a, b => a >>> b
  | and, a, b => a &&& b
  | or, a, b => a ||| b
  | ne, a, b => flag (a != b)

-- The remainder of the operands as unsigned numbers.
def unsignedRemainder? (a b : Int32) : Option Int32 :=
  if b = 0 then none else some (a.toUInt32 % b.toUInt32).toInt32

-- Drops the fraction. Numbers out of range go to the nearest end of the range,
-- and NaN to zero.
def saturate (x : Float32) : Int32 :=
  x.toModel.toInt32

-- Drops the fraction of a number in range.
def truncate? (x : Float32) : Option Int32 :=
  if -2147483648 ≤ x ∧ x < 2147483648 then some (saturate x) else none

def floatOfSigned (n : Int32) : Float32 :=
  .ofModel (.ofInt32 n)

def floatOfUnsigned (n : Int32) : Float32 :=
  n.toUInt32.toFloat32

end EchoLang
