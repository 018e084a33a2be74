import EchoLang.Decimal.Shortest

namespace EchoLang

structure NumberFormat where
  -- what follows the digits of a whole number
  wholeMark : String
  -- the powers of ten, first included and last excluded, of the leading digit
  -- for which no exponent is written; `none` if one is never written
  positional : Option (Int × Int)

namespace NumberFormat

-- Digits and nothing else, however long the number gets.
def plain : NumberFormat := ⟨"", none⟩

-- Always a point or an exponent, so that the text shows that it is a float.
def marked : NumberFormat := ⟨".0", some (-4, 16)⟩

def zeros (n : Nat) : String :=
  String.ofList (List.replicate n '0')

def writePositional (format : NumberFormat) (d : Decimal) : String :=
  let ds := Nat.toDigits 10 d.coefficient
  let places := (-d.exponent).toNat
  if 0 ≤ d.exponent then
    String.ofList ds ++ zeros d.exponent.toNat ++ format.wholeMark
  else if places < ds.length then
    String.ofList (ds.take (ds.length - places)) ++ "." ++
      String.ofList (ds.drop (ds.length - places))
  else
    "0." ++ zeros (places - ds.length) ++ String.ofList ds

-- The power of ten of the leading digit.
def leadingPower (d : Decimal) : Int :=
  d.exponent + (Nat.toDigits 10 d.coefficient).length - 1

def writeScientific (d : Decimal) : String :=
  let ds := Nat.toDigits 10 d.coefficient
  let part := if ds.length = 1 then "" else "." ++ String.ofList (ds.drop 1)
  String.ofList (ds.take 1) ++ part ++ "e" ++ toString (leadingPower d)

def writeDecimal (format : NumberFormat) (d : Decimal) : String :=
  match format.positional with
  | none => format.writePositional d
  | some (first, last) =>
    if first ≤ leadingPower d ∧ leadingPower d < last then
      format.writePositional d
    else
      writeScientific d

def write (format : NumberFormat) (x : Float32) : String :=
  if x.isNaN then
    "NaN"
  else
    let sign := if x.toBits < 0x80000000 then "" else "-"
    let value := Binary.ofFloat32 x
    if x.isInf then
      sign ++ "inf"
    else if value.significand = 0 then
      sign ++ "0" ++ format.wholeMark
    else
      sign ++ format.writeDecimal value.shortest

end NumberFormat

end EchoLang
