import MarkupSeeds.Text.Utf8

/-!
# Pairs and their stored form

A pair of fragments is stored as the bytes of the one, a separator, and the bytes of
the other.  The separator occurs in no text, so nothing needs to be escaped and no
length to be written.
-/

namespace MarkupSeeds

/-- A fragment before and after a change. -/
structure Pair where
  before : String
  after : String
  deriving DecidableEq, Repr

namespace Pair

def separator : UInt8 := 0xFF

def encode (pair : Pair) : Bytes :=
  Utf8.encode pair.before ++ separator :: Utf8.encode pair.after

/-- Splits at the first separator; both sides must be well-formed text. -/
def decode? (bytes : Bytes) : Option Pair :=
  match bytes.span (· != separator) with
  | (_, []) => none
  | (left, _ :: right) => do
    let before ← Utf8.decode? left
    let after ← Utf8.decode? right
    return ⟨before, after⟩

end Pair

end MarkupSeeds
