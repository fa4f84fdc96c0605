/-!
# Strategies

The ways in which a pair of fragments comes about.  Stored seeds show theirs in their
names.
-/

namespace MarkupSeeds

inductive Strategy
  /-- A snippet and a copy of it with different spacing. -/
  | mutated
  /-- Two different snippets drawn at random. -/
  | crossed
  /-- A transition written by hand. -/
  | curated
  deriving DecidableEq, Repr

namespace Strategy

/-- All strategies in the order in which they are applied. -/
def all : List Strategy := [mutated, crossed, curated]

def display : Strategy → String
  | mutated => "mutated"
  | crossed => "crossed"
  | curated => "curated"

/-- The beginning of the names of seeds of this strategy. -/
def mark : Strategy → String
  | mutated => "fixture_mod_"
  | crossed => "fixture_pair_"
  | curated => "fixture_hand_"

end Strategy

end MarkupSeeds
