import MarkupSeeds.Corpus
import MarkupSeeds.Notice
import MarkupSeeds.Random.Generator
import MarkupSeeds.Seed.Pair
import MarkupSeeds.Seed.Strategy
import MarkupSeeds.Size

/-!
# Pairing snippets

Each strategy turns the corpus into a stream of pairs: snippets beside spaced-out
copies of themselves, snippets crossed at random, and transitions written by hand.
-/

namespace MarkupSeeds

/-- A text with room around its tags: a space after each `>` and before each `<`. -/
def spaceOut (text : String) : String :=
  String.ofList (text.toList.flatMap fun c =>
    if c = '>' then ['>', ' '] else if c = '<' then [' ', '<'] else [c])

/-- Transitions written by hand, one for each common kind of change. -/
def curatedPairs : List Pair :=
  [⟨"<p>Hello</p>", "<p>Hello World</p>"⟩,
   ⟨"<ul><li>A</li></ul>", "<ul><li>A</li><li>B</li></ul>"⟩,
   ⟨"<div class='old'>text</div>", "<div class='new'>text</div>"⟩,
   ⟨"<span>one</span>", "<span>two</span>"⟩,
   ⟨"<a href='#'>link</a>", "<a href='/page'>link</a>"⟩,
   ⟨"<input type='text'>", "<input type='password'>"⟩,
   ⟨"<div><p>nested</p></div>", "<div><span>changed</span></div>"⟩,
   ⟨"<table><tr><td>1</td></tr></table>", "<table><tr><td>2</td></tr></table>"⟩]

def defaultMutateLimit : Nat := 500

def defaultCrossLimit : Nat := 500

/-- Random pairs, together with the generator that is left. -/
structure Crossing where
  /-- The number of draws, those dropped included. -/
  drawn : Nat
  pairs : List Pair
  generator : Generator

def Crossing.notice (crossing : Crossing) : Notice where
  level := .debug
  source := .pairs
  message := toString crossing.pairs.length ++ " of " ++ toString crossing.drawn
    ++ " cross draws kept"

/-- The pair of the snippets at two positions, unless they are the same. -/
def Corpus.pairAt? (c : Corpus) (draw : Nat × Nat) : Option Pair := do
  let before ← c.at? draw.1
  let after ← c.at? draw.2
  if before = after then none else some ⟨before, after⟩

structure Synthesizer where
  /-- Only this many snippets are paired with a copy. -/
  mutateLimit : Nat := defaultMutateLimit
  /-- There are at most this many draws of two snippets. -/
  crossLimit : Nat := defaultCrossLimit
  deriving DecidableEq, Repr

namespace Synthesizer

/-- The first snippets beside their spaced-out copies.  A snippet without tags has no
different copy and is left out. -/
def mutated (s : Synthesizer) (c : Corpus) : List Pair :=
  (c.texts.take s.mutateLimit).filterMap fun text =>
    if spaceOut text = text then none else some ⟨text, spaceOut text⟩

/-- The number of draws: two for each snippet, up to the limit. -/
def drawCount (s : Synthesizer) (c : Corpus) : Nat := min s.crossLimit (Size.satMul c.size 2)

/-- Pairs of different snippets drawn at random.  A draw of the same snippet twice is
dropped and not repeated. -/
def crossed (s : Synthesizer) (c : Corpus) (g : Generator) : Crossing :=
  let (draws, generator) := g.draws c.size (s.drawCount c)
  ⟨s.drawCount c, draws.filterMap c.pairAt?, generator⟩

/-- The stream of tagged pairs that has `crossing` for its random part. -/
def stream (s : Synthesizer) (c : Corpus) (crossing : Crossing) : List (Strategy × Pair) :=
  (s.mutated c).map (Strategy.mutated, ·)
    ++ crossing.pairs.map (Strategy.crossed, ·)
    ++ curatedPairs.map (Strategy.curated, ·)

/-- All pairs in the order of the strategies. -/
def synthesize (s : Synthesizer) (c : Corpus) (g : Generator) : List (Strategy × Pair) :=
  s.stream c (s.crossed c g)

end Synthesizer

end MarkupSeeds
