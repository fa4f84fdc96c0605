/-!
# ChaCha blocks

The block function behind the generator: sixteen words in four rows, stirred by twelve
rounds and added to themselves.  A column round works on all four columns at once; a
diagonal round is a column round on rows whose lanes have been rotated.
-/

namespace MarkupSeeds.ChaCha

structure Row where
  a : UInt32
  b : UInt32
  c : UInt32
  d : UInt32
  deriving DecidableEq, Repr

namespace Row

def zipWith (f : UInt32 → UInt32 → UInt32) (x y : Row) : Row :=
  ⟨f x.a y.a, f x.b y.b, f x.c y.c, f x.d y.d⟩

def add : Row → Row → Row := zipWith (· + ·)

/-- Exclusive or, then a rotation to the left by `n` bits, in every lane. -/
def stir (n : UInt32) : Row → Row → Row :=
  zipWith fun x y => ((x ^^^ y) <<< n) ||| ((x ^^^ y) >>> (32 - n))

/-- Moves every lane one place to the left. -/
def rotate (x : Row) : Row := ⟨x.b, x.c, x.d, x.a⟩

def words (x : Row) : List UInt32 := [x.a, x.b, x.c, x.d]

end Row

structure Block where
  p : Row
  q : Row
  r : Row
  s : Row
  deriving DecidableEq, Repr

namespace Block

/-- Four quarter rounds, one for each column. -/
def columnRound (x : Block) : Block :=
  let p := x.p.add x.q
  let s := x.s.stir 16 p
  let r := x.r.add s
  let q := x.q.stir 12 r
  let p := p.add q
  let s := s.stir 8 p
  let r := r.add s
  let q := q.stir 7 r
  ⟨p, q, r, s⟩

/-- Turns the diagonals into columns. -/
def toDiagonals (x : Block) : Block :=
  ⟨x.p, x.q.rotate, x.r.rotate.rotate, x.s.rotate.rotate.rotate⟩

def ofDiagonals (x : Block) : Block :=
  ⟨x.p, x.q.rotate.rotate.rotate, x.r.rotate.rotate, x.s.rotate⟩

def doubleRound (x : Block) : Block := x.columnRound.toDiagonals.columnRound.ofDiagonals

def rounds : Nat → Block → Block
  | 0, x => x
  | n + 1, x => rounds n x.doubleRound

def add (x y : Block) : Block := ⟨x.p.add y.p, x.q.add y.q, x.r.add y.r, x.s.add y.s⟩

def words (x : Block) : List UInt32 := x.p.words ++ x.q.words ++ x.r.words ++ x.s.words

end Block

def constants : Row := ⟨0x61707865, 0x3320646E, 0x79622D32, 0x6B206574⟩

/-- A key of eight words. -/
structure Key where
  low : Row
  high : Row
  deriving DecidableEq, Repr

/-- The input block of a key: a counter of two words, its low half first, and a nonce
of zero. -/
def input (key : Key) (counter : UInt64) : Block :=
  ⟨constants, key.low, key.high, ⟨counter.toUInt32, (counter >>> 32).toUInt32, 0, 0⟩⟩

/-- The output of twelve rounds. -/
def block (key : Key) (counter : UInt64) : Block :=
  (Block.rounds 6 (input key counter)).add (input key counter)

end MarkupSeeds.ChaCha
