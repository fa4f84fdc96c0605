/-!
# UTF-8

Texts are strings, their stored form is a list of bytes.  Bytes are cut into
units: either a well-formed sequence, which stands for one character, or a
broken piece as long as it can be read as the beginning of such a sequence.
The strict reader accepts bytes without broken pieces, the lenient one puts a
replacement character in the place of each.
-/

namespace MarkupSeeds

abbrev Bytes := List UInt8

namespace Utf8

def encodeChars (chars : List Char) : Bytes := chars.flatMap String.utf8EncodeChar

def encode (text : String) : Bytes := encodeChars text.toList

/-- What a leading byte of a longer sequence announces: how many bytes follow it
and the bounds of the first of them.  The bounds exclude the overlong forms, the
surrogates and the values above U+10FFFF. -/
structure Lead where
  more : Nat
  low : UInt8
  high : UInt8

def lead? (b : UInt8) : Option Lead :=
  if b < 0xC2 then none
  else if b < 0xE0 then some ⟨1, 0x80, 0xBF⟩
  else if b = 0xE0 then some ⟨2, 0xA0, 0xBF⟩
  else if b = 0xED then some ⟨2, 0x80, 0x9F⟩
  else if b < 0xF0 then some ⟨2, 0x80, 0xBF⟩
  else if b = 0xF0 then some ⟨3, 0x90, 0xBF⟩
  else if b < 0xF4 then some ⟨3, 0x80, 0xBF⟩
  else if b = 0xF4 then some ⟨3, 0x80, 0x8F⟩
  else none

def isContinuation (b : UInt8) : Bool := 0x80 ≤ b && b ≤ 0xBF

/-- The bytes at the head of `rest` that continue the sequence, at most as many
as were announced. -/
def Lead.run (lead : Lead) : Bytes → Bytes
  | [] => []
  | b :: rest =>
    if lead.low ≤ b ∧ b ≤ lead.high then
      b :: (rest.take (lead.more - 1)).takeWhile isContinuation
    else []

/-- The character of a complete sequence: the low bits of the leading byte, one less
for each byte announced, followed by six bits of each further byte. -/
def Lead.char (lead : Lead) (b : UInt8) (run : Bytes) : Char :=
  Char.ofNat (run.foldl (fun value c => value * 64 + c.toNat % 64)
    (b.toNat % Nat.pow 2 (6 - lead.more)))

/-- The units of a byte string in order, `none` for a broken one. -/
def units : Bytes → List (Option Char)
  | [] => []
  | b :: rest =>
    if b < 0x80 then some (Char.ofNat b.toNat) :: units rest
    else match lead? b with
      | none => none :: units rest
      | some lead =>
        let run := lead.run rest
        let unit := if run.length = lead.more then some (lead.char b run) else none
        unit :: units (rest.drop run.length)
termination_by bytes => bytes.length
decreasing_by all_goals simp only [List.length_drop, List.length_cons]; omega

/-- Strict reading: the text of bytes that are well formed throughout. -/
def decode? (bytes : Bytes) : Option String :=
  let units := units bytes
  if units.all Option.isSome then some (String.ofList (units.filterMap id)) else none

def replacement : Char := '\uFFFD'

/-- Lenient reading: each broken unit becomes one replacement character. -/
def lossy (bytes : Bytes) : String :=
  String.ofList ((units bytes).map (·.getD replacement))

/-- The number of characters that lenient reading yields. -/
def count (bytes : Bytes) : Nat := (units bytes).length

end Utf8

end MarkupSeeds
