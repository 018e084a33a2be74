import EchoLang.Decimal.Basic
import EchoLang.FloatBits

namespace EchoLang.Decimal

-- Whether the text starts with a minus sign, and the text without its sign.
def splitSign : List Char → Bool × List Char
  | '-' :: rest => (true, rest)
  | '+' :: rest => (false, rest)
  | cs => (false, cs)

def natOfDigits (ds : List Char) : Nat :=
  ds.foldl (fun n c => 10 * n + (c.toNat - '0'.toNat)) 0

def exponent? : List Char → Option Int
  | [] => some 0
  | mark :: rest =>
    let (negative, ds) := splitSign rest
    if (mark = 'e' ∨ mark = 'E') ∧ ds ≠ [] ∧ ds.all Char.isDigit then
      some (if negative then -(natOfDigits ds : Int) else natOfDigits ds)
    else
      none

-- The digits behind a point, and what follows them.
def splitFraction : List Char → List Char × List Char
  | '.' :: rest => rest.span Char.isDigit
  | cs => ([], cs)

-- An unsigned numeral. Digits may be missing on one side of the point, not on
-- both.
def ofDigits? (cs : List Char) : Option Decimal :=
  let (whole, rest) := cs.span Char.isDigit
  let (part, rest) := splitFraction rest
  if whole ++ part = [] then
    none
  else
    (exponent? rest).map fun e => ⟨natOfDigits (whole ++ part), e - part.length⟩

-- The float nearest to a decimal, the even one of two that are equally near.
def toFloat32 (d : Decimal) : Float32 :=
  Float32.ofScientific d.coefficient (d.exponent < 0) d.exponent.natAbs

def infinity : FloatBits := ⟨0x7F800000⟩

def notANumber : FloatBits := ⟨0x7FC00000⟩

def magnitude? (cs : List Char) : Option FloatBits :=
  let lowered := cs.map Char.toLower
  if lowered = ['i', 'n', 'f'] ∨ lowered = ['i', 'n', 'f', 'i', 'n', 'i', 't', 'y'] then
    some infinity
  else if lowered = ['n', 'a', 'n'] then
    some notANumber
  else
    (ofDigits? cs).map fun d => .ofValue d.toFloat32

-- A numeral is an optional sign, then `inf`, `infinity` or `nan` in any letter case, or digits
-- with an optional point and an optional exponent.
def read? (text : String) : Option FloatBits :=
  let (negative, cs) := splitSign text.toList
  (magnitude? cs).map fun x => if negative then x.negate else x

end EchoLang.Decimal
