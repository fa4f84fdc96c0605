/-!
# Outcomes

What becomes of a seed that is handed to a writer.
-/

namespace MarkupSeeds

inductive Outcome
  | created
  /-- A file of the same name and content is there. -/
  | alreadyPresent
  deriving DecidableEq, Repr

end MarkupSeeds
