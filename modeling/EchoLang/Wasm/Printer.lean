import EchoLang.Wasm.Bytes

namespace EchoLang.Wasm

-- Writes a binary as text, or tells why there is no text for it. Compiling works with any
-- printer.
abbrev Printer := Bytes → Except String String

def hexDigits (byte : UInt8) : String :=
  String.ofList [Nat.digitChar (byte.toNat / 16), Nat.digitChar (byte.toNat % 16)]

-- The text that quotes the binary byte by byte. There is one for every binary.
def Printer.quoting : Printer := fun binary =>
  let quoted := String.join (binary.map fun byte => "\\" ++ hexDigits byte)
  .ok ("(module binary \"" ++ quoted ++ "\")\n")

end EchoLang.Wasm
