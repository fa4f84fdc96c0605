import MarkupSeeds.Markup.Shape
import MarkupSeeds.Markup.Closing
import MarkupSeeds.Notice

/-!
# Extraction of snippets

An extractor cuts out of a text whatever lies between an opening tag and its closing
tag.  Each shape is scanned for on its own, from left to right, and yields disjoint
spans of the text.  Offsets count bytes, lengths of snippets count characters.
-/

namespace MarkupSeeds

open Markup

/-- A piece of a text, from the byte at `start` up to but not including `stop`. -/
structure Span where
  start : Nat
  stop : Nat
  deriving DecidableEq, Repr

def Span.cut (span : Span) (bytes : Array UInt8) : Bytes :=
  (bytes.extract span.start span.stop).toList

theorem Span.cut_toArray (span : Span) (bytes : Bytes) :
    span.cut bytes.toArray = (bytes.drop span.start).take (span.stop - span.start) := by
  simp [Span.cut, List.extract_eq_take_drop]

/-- Snippets are longer than this many characters. -/
def minSnippetLength : Nat := 10

def defaultMaxLength : Nat := 2000

structure Extractor where
  /-- The number of characters that a snippet may have at most. -/
  maxLength : Nat := defaultMaxLength
  nesting : Nesting := .balanced
  deriving DecidableEq, Repr

/-- Whether a span of this many characters is kept as a snippet. -/
def Extractor.keeps (e : Extractor) (length : Nat) : Bool :=
  minSnippetLength < length && length ≤ e.maxLength

namespace Extractor

/-- The end of the span that `tag` opens at `start`, with `body` the bytes after the
tag.  The balanced search is cut off after `budget` bytes. -/
def stop? (e : Extractor) (shape : Shape) (budget : Option Nat) (start : Nat) (tag : Opening)
    (body : Bytes) : Option Nat :=
  let bodyStart := start + 1 + tag.length
  match shape.kind, e.nesting with
  | .void, _ => some bodyStart
  | .paired, .nearest => nearestClose? shape.labels bodyStart body
  | .paired, .balanced =>
    balancedClose? tag.name (budget.map (Size.satAdd start)) 1 bodyStart body

/-- The spans of a shape that begin at or after `pos`, the offset of the bytes that
are left.  A span that is not kept is skipped as a whole by the nearest rule; the
balanced rule goes on behind its opening tag, so that elements nested in it still
get a chance. -/
def scan (e : Extractor) (shape : Shape) (budget : Option Nat) (pos : Nat) : Bytes → List Span
  | [] => []
  | b :: tail =>
    if b = lt then
      match opening? shape.labels tail with
      | none => e.scan shape budget (pos + 1) tail
      | some tag =>
        match e.stop? shape budget pos tag (tail.drop tag.length) with
        | none => e.scan shape budget (pos + 1) tail
        | some stop =>
          if e.keeps (Utf8.count ((b :: tail).take (stop - pos))) then
            ⟨pos, stop⟩ :: e.scan shape budget stop (tail.drop (stop - (pos + 1)))
          else
            match e.nesting with
            | .nearest => e.scan shape budget stop (tail.drop (stop - (pos + 1)))
            | .balanced =>
              e.scan shape budget (pos + 1 + tag.length) (tail.drop tag.length)
    else e.scan shape budget (pos + 1) tail
termination_by bytes => bytes.length
decreasing_by all_goals simp only [List.length_drop, List.length_cons]; omega

/-- A span that takes up more bytes than this has too many characters, as a
character takes at most four bytes. -/
def budget (e : Extractor) : Nat := Size.satMul e.maxLength 4

def spans (e : Extractor) (shape : Shape) (bytes : Bytes) : List Span :=
  e.scan shape (some e.budget) 0 bytes

/-- The snippets of one shape from left to right. -/
def snippets (e : Extractor) (shape : Shape) (text : String) : List String :=
  let bytes := Utf8.encode text
  let stored := bytes.toArray
  (e.spans shape bytes).map fun span => Utf8.lossy (span.cut stored)

/-- What was found, shape by shape. -/
def findings (e : Extractor) (text : String) : List (Shape × List String) :=
  shapes.map fun shape => (shape, e.snippets shape text)

/-- All snippets of a text in the order of the shapes.  The same snippet may occur
more than once. -/
def extract (e : Extractor) (text : String) : List String :=
  (e.findings text).flatMap Prod.snd

/-- The notice of one shape's findings. -/
def notice (found : Shape × List String) : Notice where
  level := .trace
  source := .extract
  message := "shape " ++ found.1.display ++ ": " ++ toString found.2.length ++ " snippets"

end Extractor

end MarkupSeeds
