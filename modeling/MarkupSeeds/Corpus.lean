import MarkupSeeds.Text.Sorted

/-!
# The corpus

The unique snippets pooled from all documents.  They are kept in ascending order, so
that taking the first few of them, or the ones at given positions, gives the same
snippets in every run.
-/

namespace MarkupSeeds

structure Corpus where
  texts : List String
  ascending : Sorted.Ascending texts
  deriving DecidableEq

namespace Corpus

@[ext]
theorem ext {left right : Corpus} (heq : left.texts = right.texts) : left = right := by
  cases left
  cases right
  simp_all

def empty : Corpus := ⟨[], List.Pairwise.nil⟩

def size (c : Corpus) : Nat := c.texts.length

def isEmpty (c : Corpus) : Bool := c.texts.isEmpty

def contains (c : Corpus) (text : String) : Bool := c.texts.contains text

/-- The text at a position of the sorted list. -/
def at? (c : Corpus) (index : Nat) : Option String := c.texts[index]?

/-- The corpus with one more text, or nothing if the text is a member already. -/
def insert? (c : Corpus) (text : String) : Option Corpus :=
  match hplaced : Sorted.insert? text c.texts with
  | some texts => some ⟨texts, Sorted.ascending_insert? c.ascending hplaced⟩
  | none => none

def insert (c : Corpus) (text : String) : Corpus := (c.insert? text).getD c

def extend (c : Corpus) (texts : List String) : Corpus := texts.foldl insert c

def ofList (texts : List String) : Corpus := empty.extend texts

theorem texts_insert (c : Corpus) (text : String) :
    (c.insert text).texts = Sorted.insert text c.texts := by
  rw [insert, insert?, Sorted.insert]
  split <;> simp_all

theorem texts_extend (c : Corpus) (texts : List String) :
    (c.extend texts).texts = Sorted.insertAll c.texts texts := by
  induction texts generalizing c with
  | nil => rfl
  | cons text rest ih =>
    simp only [extend, List.foldl_cons, Sorted.insertAll] at ih ⊢
    rw [ih, texts_insert]

theorem mem_insert (c : Corpus) (text t : String) :
    t ∈ (c.insert text).texts ↔ t = text ∨ t ∈ c.texts := by
  rw [texts_insert, Sorted.mem_insert c.ascending]

theorem mem_extend (c : Corpus) (texts : List String) (t : String) :
    t ∈ (c.extend texts).texts ↔ t ∈ c.texts ∨ t ∈ texts := by
  rw [texts_extend, Sorted.mem_insertAll c.ascending]

end Corpus

end MarkupSeeds
