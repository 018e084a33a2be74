import EchoLang.FloatBits

namespace EchoLang.Wasm

abbrev Bytes := List UInt8

-- Seven bits to a byte, the lowest first. All bytes but the last have their
-- high bit set.
def unsigned (n : Nat) : Bytes :=
  if n < 128 then [n.toUInt8] else (n % 128 + 128).toUInt8 :: unsigned (n / 128)
termination_by n
decreasing_by omega

-- The last byte also tells the sign, by the second highest of its bits.
def signed (n : Int) : Bytes :=
  let low := (n % 128).toNat
  if (n / 128 = 0 ∧ low < 64) ∨ (n / 128 = -1 ∧ 64 ≤ low) then
    [low.toUInt8]
  else
    (low + 128).toUInt8 :: signed (n / 128)
termination_by n.natAbs
decreasing_by omega

-- The bits of a float, the lowest byte first.
def float (x : FloatBits) : Bytes :=
  [x.word.toUInt8, (x.word >>> 8).toUInt8, (x.word >>> 16).toUInt8, (x.word >>> 24).toUInt8]

def text (s : String) : Bytes :=
  let bytes := s.toUTF8.data.toList
  unsigned bytes.length ++ bytes

def vector (items : List Bytes) : Bytes :=
  unsigned items.length ++ items.flatten

def sized (content : Bytes) : Bytes :=
  unsigned content.length ++ content

-- A part of a module with its number.
def part (id : UInt8) (content : Bytes) : Bytes :=
  id :: sized content

end EchoLang.Wasm
