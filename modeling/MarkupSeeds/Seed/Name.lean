import MarkupSeeds.Digest.Sha1
import MarkupSeeds.Seed.Pair
import MarkupSeeds.Seed.Strategy
import MarkupSeeds.Text.Hex

/-!
# Names of seeds

A seed is named by the mark of its strategy and the digest of its stored form.
-/

namespace MarkupSeeds

def seedName (strategy : Strategy) (bytes : Bytes) : String :=
  strategy.mark ++ Hex.encode (Sha1.digest bytes)

/-- The name under which a pair is stored. -/
def Pair.name (pair : Pair) (strategy : Strategy) : String := seedName strategy pair.encode

end MarkupSeeds
