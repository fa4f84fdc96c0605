import MarkupSeeds.Random.ChaCha

/-!
# The random generator

A generator is seeded with one word, which is stretched to a key.  It hands out the
words of successive blocks and draws numbers below a bound from them.
-/

namespace MarkupSeeds

structure Generator where
  key : ChaCha.Key
  /-- The number of blocks used so far. -/
  counter : UInt64
  /-- The words of the current block that are still to be handed out. -/
  pending : List UInt32
  deriving DecidableEq, Repr

namespace Generator

/-- One step of the linear congruential stretch of a seed. -/
def stretch (state : UInt64) : UInt64 := state * 6364136223846793005 + 11634580027462260723

/-- The word that a stretched state yields. -/
def permute (state : UInt64) : UInt32 :=
  let x := (((state >>> 18) ^^^ state) >>> 27).toUInt32
  let n := (state >>> 59).toUInt32
  (x >>> n) ||| (x <<< ((32 - n) % 32))

/-- Four key words and the state behind them. -/
def keyRow (state : UInt64) : ChaCha.Row × UInt64 :=
  let s₁ := stretch state
  let s₂ := stretch s₁
  let s₃ := stretch s₂
  let s₄ := stretch s₃
  (⟨permute s₁, permute s₂, permute s₃, permute s₄⟩, s₄)

def ofSeed (seed : UInt64) : Generator :=
  let (low, state) := keyRow seed
  let (high, _) := keyRow state
  ⟨⟨low, high⟩, 0, []⟩

/-- The next word.  A new block is made when none is left. -/
def next (g : Generator) : UInt32 × Generator :=
  match g.pending with
  | w :: rest => (w, { g with pending := rest })
  | [] =>
    let block := ChaCha.block g.key g.counter
    (block.p.a, { g with counter := g.counter + 1, pending := block.words.tail })

/-- A number below `n`: the high half of a word multiplied by `n`.  Where the low half
leaves room for a carry, the product of one further word decides whether there is
one.  This is how numbers are drawn as long as `n` is one of 32 bits; for larger ones, which
would take a corpus of billions of snippets, words of 64 bits are drawn, and that is left out. -/
def below (n : Nat) (g : Generator) : Nat × Generator :=
  let (w, g) := g.next
  let high := w.toNat * n / UInt32.size
  let low := w.toNat * n % UInt32.size
  if UInt32.size - n < low then
    let (w, g) := g.next
    (if UInt32.size ≤ low + w.toNat * n / UInt32.size then high + 1 else high, g)
  else (high, g)

/-- A list of `count` draws, each a pair of numbers below `n`. -/
def draws (n : Nat) : Nat → Generator → List (Nat × Nat) × Generator
  | 0, g => ([], g)
  | count + 1, g =>
    let (a, g) := g.below n
    let (b, g) := g.below n
    let (rest, g) := draws n count g
    ((a, b) :: rest, g)

end Generator

end MarkupSeeds
