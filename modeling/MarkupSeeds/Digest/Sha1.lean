import MarkupSeeds.Text.Utf8

/-!
# SHA-1

The digest that names stored seeds.  A message is padded to whole blocks of
sixteen big-endian words, and the blocks are absorbed one after another into a
state of five words.
-/

namespace MarkupSeeds.Sha1

structure State where
  a : UInt32
  b : UInt32
  c : UInt32
  d : UInt32
  e : UInt32

def initial : State :=
  ⟨0x67452301, 0xEFCDAB89, 0x98BADCFE, 0x10325476, 0xC3D2E1F0⟩

def rotateLeft (x : UInt32) (n : UInt32) : UInt32 := (x <<< n) ||| (x >>> (32 - n))

/-- The big-endian bytes of a word. -/
def wordBytes (w : UInt32) : Bytes :=
  [(w >>> 24).toUInt8, (w >>> 16).toUInt8, (w >>> 8).toUInt8, w.toUInt8]

def word (a b c d : UInt8) : UInt32 :=
  (a.toUInt32 <<< 24) ||| (b.toUInt32 <<< 16) ||| (c.toUInt32 <<< 8) ||| d.toUInt32

/-- The words of a byte string, a rest of less than four bytes left out. -/
def words : Bytes → List UInt32
  | a :: b :: c :: d :: rest => word a b c d :: words rest
  | _ => []

/-- Zero bytes that fill the last block between the delimiter and the length. -/
def paddingZeros (length : Nat) : Nat := (119 - length % 64) % 64

/-- The message, a delimiter, zeros, and the length in bits as two words. -/
def padded (message : Bytes) : Bytes :=
  let bits := message.length * 8
  message ++ 0x80 :: List.replicate (paddingZeros message.length) 0
    ++ wordBytes (UInt32.ofNat (bits / UInt32.size)) ++ wordBytes (UInt32.ofNat bits)

/-- One more word of the message schedule, which is kept newest first. -/
def nextWord (schedule : List UInt32) : UInt32 :=
  rotateLeft (schedule.getD 2 0 ^^^ schedule.getD 7 0 ^^^ schedule.getD 13 0
    ^^^ schedule.getD 15 0) 1

def extend : Nat → List UInt32 → List UInt32
  | 0, schedule => schedule
  | n + 1, schedule => extend n (nextWord schedule :: schedule)

/-- The mixing function and the constant of round `t`. -/
def mix (t : Nat) (b c d : UInt32) : UInt32 :=
  if t < 20 then ((b &&& c) ||| (~~~b &&& d)) + 0x5A827999
  else if t < 40 then (b ^^^ c ^^^ d) + 0x6ED9EBA1
  else if t < 60 then ((b &&& c) ||| (b &&& d) ||| (c &&& d)) + 0x8F1BBCDC
  else (b ^^^ c ^^^ d) + 0xCA62C1D6

def round (s : State) (t : Nat) (w : UInt32) : State :=
  ⟨rotateLeft s.a 5 + mix t s.b s.c s.d + s.e + w, s.a, rotateLeft s.b 30, s.c, s.d⟩

def rounds (t : Nat) (s : State) : List UInt32 → State
  | [] => s
  | w :: rest => rounds (t + 1) (round s t w) rest

/-- Absorbs a block, given newest word first. -/
def compress (s : State) (block : List UInt32) : State :=
  let r := rounds 0 s (extend 64 block).reverse
  ⟨s.a + r.a, s.b + r.b, s.c + r.c, s.d + r.d, s.e + r.e⟩

/-- Words are gathered, newest first, until a block is complete. -/
def absorb (gathered : State × List UInt32) (w : UInt32) : State × List UInt32 :=
  let block := w :: gathered.2
  if block.length = 16 then (compress gathered.1 block, []) else (gathered.1, block)

def State.bytes (s : State) : Bytes :=
  wordBytes s.a ++ wordBytes s.b ++ wordBytes s.c ++ wordBytes s.d ++ wordBytes s.e

/-- The twenty bytes of the digest. -/
def digest (message : Bytes) : Bytes :=
  ((words (padded message)).foldl absorb (initial, [])).1.bytes

theorem length_digest (message : Bytes) : (digest message).length = 20 := rfl

end MarkupSeeds.Sha1
