import MarkupSeeds.Seed.Outcome
import MarkupSeeds.Seed.Strategy

/-!
# Reports

The counts of a run, in full and as one line of JSON.  A run counts from zero, so its counters
have room for all that it comes to count; what becomes of a report that is handed in with high
counts is left to `Overflow`.
-/

namespace MarkupSeeds

/-- The seeds of one strategy. -/
structure Tally where
  /-- Pairs that the strategy produced. -/
  pairs : Nat := 0
  created : Nat := 0
  /-- Seeds whose file was there already. -/
  existing : Nat := 0
  deriving DecidableEq, Repr

def Tally.record (t : Tally) : Outcome → Tally
  | .created => { t with pairs := t.pairs + 1, created := t.created + 1 }
  | .alreadyPresent => { t with pairs := t.pairs + 1, existing := t.existing + 1 }

structure Report where
  fixturesRead : Nat := 0
  fixturesFailed : Nat := 0
  /-- Snippets extracted, repeated ones included. -/
  snippetsFound : Nat := 0
  uniqueSnippets : Nat := 0
  mutated : Tally := {}
  crossed : Tally := {}
  curated : Tally := {}
  deriving DecidableEq, Repr

/-- A JSON object from the written forms of its fields. -/
def jsonObject (fields : List (String × String)) : String :=
  "\x7b" ++ ",".intercalate (fields.map fun field => "\"" ++ field.1 ++ "\":" ++ field.2) ++ "\x7d"

def Tally.json (t : Tally) : String :=
  jsonObject
    [("pairs", toString t.pairs), ("created", toString t.created),
     ("existing", toString t.existing)]

namespace Report

def tally (r : Report) : Strategy → Tally
  | .mutated => r.mutated
  | .crossed => r.crossed
  | .curated => r.curated

/-- Counts a seed that was handed to a writer. -/
def record (r : Report) (strategy : Strategy) (outcome : Outcome) : Report :=
  match strategy with
  | .mutated => { r with mutated := r.mutated.record outcome }
  | .crossed => { r with crossed := r.crossed.record outcome }
  | .curated => { r with curated := r.curated.record outcome }

/-- The number of seed files made, whatever their strategy. -/
def seedsCreated (r : Report) : Nat :=
  Strategy.all.foldl (fun total strategy => total + (r.tally strategy).created) 0

def json (r : Report) : String :=
  jsonObject
    [("fixtures_read", toString r.fixturesRead), ("fixtures_failed", toString r.fixturesFailed),
     ("snippets_found", toString r.snippetsFound),
     ("unique_snippets", toString r.uniqueSnippets),
     ("mutated", r.mutated.json), ("crossed", r.crossed.json), ("curated", r.curated.json)]

end Report

end MarkupSeeds
