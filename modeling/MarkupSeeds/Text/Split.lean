/-!
# Splitting at a character

The pieces of a text between occurrences of a character, empty ones included.  There is
always one piece more than there are occurrences.
-/

namespace MarkupSeeds

def splitAt (separator : Char) : List Char → List (List Char)
  | [] => [[]]
  | c :: rest =>
    if c = separator then [] :: splitAt separator rest
    else match splitAt separator rest with
      | [] => [[c]]
      | piece :: pieces => (c :: piece) :: pieces

end MarkupSeeds
