import MarkupSeeds.Text.Utf8

/-!
# Hexadecimal digits

Bytes written as two lowercase digits each, the high half first.
-/

namespace MarkupSeeds.Hex

/-- The digit of a number below sixteen. -/
def digit (n : Nat) : Char :=
  if n < 10 then Char.ofNat ('0'.toNat + n) else Char.ofNat ('a'.toNat + (n - 10))

def pair (b : UInt8) : List Char := [digit (b.toNat / 16), digit (b.toNat % 16)]

def encodeChars (bytes : Bytes) : List Char := bytes.flatMap pair

def encode (bytes : Bytes) : String := String.ofList (encodeChars bytes)

end MarkupSeeds.Hex
