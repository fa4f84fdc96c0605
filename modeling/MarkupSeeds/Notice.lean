/-!
# Notices

What the library has to say while it works is data: a notice with a severity, the
part of the library it comes from, and a message.  Whoever runs the library decides
which notices are shown.
-/

namespace MarkupSeeds

/-- Severities, the most severe first. -/
inductive Level
  | error
  | warn
  | info
  | debug
  | trace
  deriving DecidableEq, Repr

namespace Level

/-- From one for an error to five for a trace. -/
def rank : Level → Nat
  | error => 1
  | warn => 2
  | info => 3
  | debug => 4
  | trace => 5

def display : Level → String
  | error => "ERROR"
  | warn => "WARN"
  | info => "INFO"
  | debug => "DEBUG"
  | trace => "TRACE"

end Level

/-- The parts of the library that give notice. -/
inductive Source
  | run
  | extract
  | pairs
  | seed
  deriving DecidableEq, Repr

/-- The name by which a filter selects a source. -/
def Source.target : Source → String
  | run => "hotmeal_seeds"
  | extract => "hotmeal_seeds::extract"
  | pairs => "hotmeal_seeds::pairs"
  | seed => "hotmeal_seeds::seed"

structure Notice where
  level : Level
  source : Source
  message : String
  deriving DecidableEq, Repr

namespace Notice

/-- A notice on the progress of a run. -/
def info (message : String) : Notice := ⟨.info, .run, message⟩

def display (notice : Notice) : String := notice.level.display ++ " " ++ notice.message

end Notice

end MarkupSeeds
