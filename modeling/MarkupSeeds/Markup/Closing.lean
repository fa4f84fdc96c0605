import MarkupSeeds.Size
import MarkupSeeds.Markup.Tag

/-!
# The end of a paired element

Two rules say which closing tag ends an element.  The nearest rule takes the first
closing tag of any name of the shape.  The balanced rule counts the opening and
closing tags of the element's own name and takes the closing tag that brings the
count back to zero.  Both are given the offset `pos` of the bytes that they search
and answer with the offset just past the closing tag.
-/

namespace MarkupSeeds.Markup

inductive Nesting
  /-- The first closing tag, which must be exactly `</name>`. -/
  | nearest
  /-- The closing tag that balances the opening tag. -/
  | balanced
  deriving DecidableEq, Repr

def nearestClose? (names : List Bytes) (pos : Nat) : Bytes → Option Nat
  | [] => none
  | b :: tail =>
    if b = lt then
      match names.findSome? (closing? false · tail) with
      | some n => some (pos + 1 + n)
      | none => nearestClose? names (pos + 1) tail
    else nearestClose? names (pos + 1) tail

/-- Searches with `depth` elements open.  A limit ends the search at the first `<`
at or beyond it and refuses a closing tag that reaches beyond it. -/
def balancedClose? (name : Bytes) (limit : Option Nat) (depth pos : Nat) : Bytes → Option Nat
  | [] => none
  | b :: tail =>
    if b = lt then
      if limit.any (· ≤ pos) then none
      else
        match closing? true name tail with
        | some n =>
          if depth ≤ 1 then some (pos + 1 + n) |>.filter fun stop => limit.all (stop ≤ ·)
          else balancedClose? name limit (depth - 1) (pos + 1 + n) (tail.drop n)
        | none =>
          match opening? [name] tail with
          | some tag =>
            balancedClose? name limit (depth + 1) (pos + 1 + tag.length) (tail.drop tag.length)
          | none => balancedClose? name limit depth (pos + 1) tail
    else balancedClose? name limit depth (pos + 1) tail
termination_by bytes => bytes.length
decreasing_by all_goals simp only [List.length_drop, List.length_cons]; omega

end MarkupSeeds.Markup
