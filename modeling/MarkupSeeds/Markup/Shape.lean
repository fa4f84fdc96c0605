import MarkupSeeds.Text.Utf8

/-!
# Shapes

A shape is a family of tag names that are looked for together.  The list of
shapes fixes which elements are cut out of a text and in which order.
-/

namespace MarkupSeeds.Markup

/-- Whether elements of a shape have content and a closing tag. -/
inductive Kind
  | paired
  | void
  deriving DecidableEq, Repr

structure Shape where
  names : List String
  kind : Kind
  deriving DecidableEq, Repr

namespace Shape

def paired (names : List String) : Shape := ⟨names, .paired⟩

def void (names : List String) : Shape := ⟨names, .void⟩

/-- The names as bytes. -/
def labels (shape : Shape) : List Bytes := shape.names.map Utf8.encode

/-- The names as they appear in messages. -/
def display (shape : Shape) : String :=
  "[" ++ ", ".intercalate (shape.names.map fun name => "\"" ++ name ++ "\"") ++ "]"

end Shape

/-- The shapes in the order in which they are applied. -/
def shapes : List Shape :=
  [.paired ["div"],
   .paired ["p"],
   .paired ["ul"],
   .paired ["ol"],
   .paired ["li"],
   .paired ["span"],
   .paired ["a"],
   .paired ["table"],
   .paired ["tr"],
   .paired ["td"],
   .paired ["th"],
   .paired ["section"],
   .paired ["article"],
   .paired ["nav"],
   .paired ["header"],
   .paired ["footer"],
   .paired ["h1", "h2", "h3", "h4", "h5", "h6"],
   .paired ["form"],
   .void ["input"],
   .paired ["button"]]

end MarkupSeeds.Markup
