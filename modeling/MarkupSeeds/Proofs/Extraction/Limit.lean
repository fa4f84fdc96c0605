import MarkupSeeds.Proofs.Extraction.Completeness

/-!
# What the limit spares

A limit on the balanced search decides only which ends are refused, although it is looked at
before every tag on the way.  The limit that a scan passes is four bytes for each character
that a snippet may have, so it refuses no end of an element that is short enough.  Both
operations that make up the limit stop at the largest word, and the end of an element in a
text of fewer bytes lies below that.
-/

namespace MarkupSeeds.Extractor

open Markup

/-- From the opening tag of a paired element to the end that the balanced search finds without a
limit there is always a piece of the text. -/
theorem exists_slice_of_balancedClose? {shape : Shape}
    (hlabels : ∀ name ∈ shape.labels, IsLabel name) (hpaired : shape.kind = .paired)
    {text : String} {start stop : Nat} {tag : Opening}
    (hopens : openingAt? shape.labels (Utf8.encode text) start = some tag)
    (hcloses : balancedClose? tag.name none 1 (start + 1 + tag.length)
      ((Utf8.encode text).drop (start + 1 + tag.length)) = some stop) :
    ∃ piece, IsSlice text ⟨start, stop⟩ piece := by
  have hcandidate : Candidate {} shape none (Utf8.encode text) start tag stop := by
    refine ⟨hopens, ?_⟩
    simp only [stop?, hpaired]
    exact hcloses
  obtain ⟨piece, hslice, -⟩ := exists_slice_of_isElement (hcandidate.occurs_isElement hlabels)
  exact ⟨piece, hslice⟩

/-- A limit refuses the ends beyond it and leaves all others as they are.  The limit that a scan
passes leaves the end of every element with so many characters as a snippet may have. -/
theorem limit_refuses_only_what_is_too_long :
    (∀ (name bytes : Bytes) (pos limit stop : Nat),
        balancedClose? name (some limit) 1 pos (bytes.drop pos) = some stop ↔
          balancedClose? name none 1 pos (bytes.drop pos) = some stop ∧ stop ≤ limit) ∧
      ∀ (maxLength : Nat) (text : String), (Utf8.encode text).length < UInt64.size →
        ∀ shape ∈ shapes, shape.kind = .paired → ∀ (start stop : Nat) (tag : Opening),
          openingAt? shape.labels (Utf8.encode text) start = some tag →
          balancedClose? tag.name none 1 (start + 1 + tag.length)
            ((Utf8.encode text).drop (start + 1 + tag.length)) = some stop →
          ∃ piece, IsSlice text ⟨start, stop⟩ piece ∧
            (piece.length ≤ maxLength →
              balancedClose? tag.name (some (Size.satAdd start (Size.satMul maxLength 4))) 1
                (start + 1 + tag.length) ((Utf8.encode text).drop (start + 1 + tag.length)) =
                  some stop) := by
  constructor
  · intro name bytes pos limit stop
    exact balancedClose?_some_limit_iff
  · intro maxLength text hsize shape hshape hpaired start stop tag hopens hcloses
    obtain ⟨piece, hslice⟩ :=
      exists_slice_of_balancedClose? (isLabel_of_mem_shapes hshape) hpaired hopens hcloses
    refine ⟨piece, hslice, fun hshort => ?_⟩
    have hlimit : stop ≤ Size.satAdd start (Size.satMul maxLength 4) :=
      stop_le_limit hsize hslice hshort
    exact balancedClose?_some_limit_iff.mpr ⟨hcloses, hlimit⟩

/-- An element with another one in it, 26 characters in 35 bytes, for snippets of just so many
characters and for snippets of any length. -/
theorem limit_refuses_only_what_is_too_long_of_nested :
    let text := "é<div>😀<DIV>😀</div >😀</div>"
    let bytes := Utf8.encode text
    let name := Utf8.encode "div"
    openingAt? [name] bytes 2 = some ⟨name, 4⟩ ∧
      balancedClose? name none 1 7 (bytes.drop 7) = some 37 ∧
      balancedClose? name (some (Size.satAdd 2 (Size.satMul 26 4))) 1 7 (bytes.drop 7) = some 37 ∧
      balancedClose? name (some (Size.satAdd 2 (Size.satMul Size.largest 4))) 1 7 (bytes.drop 7) =
        some 37 := by
  intro text bytes name
  have hopens : openingAt? [name] bytes 2 = some ⟨name, 4⟩ := by decide +kernel
  have hcloses : balancedClose? name none 1 7 (bytes.drop 7) = some 37 := by decide +kernel
  have hslice : IsSlice text ⟨2, 37⟩ "<div>😀<DIV>😀</div >😀</div>" :=
    ⟨"é", "", by decide +kernel, by decide +kernel, by decide +kernel⟩
  have hspared : ∀ maxLength, 26 ≤ maxLength →
      balancedClose? name (some (Size.satAdd 2 (Size.satMul maxLength 4))) 1 7 (bytes.drop 7) =
        some 37 := by
    intro maxLength hlong
    obtain ⟨piece, hpiece, hfinds⟩ := limit_refuses_only_what_is_too_long.2 maxLength text
      (by decide +kernel) (.paired ["div"]) (by decide) rfl 2 37 ⟨name, 4⟩ hopens hcloses
    have hsame : piece = "<div>😀<DIV>😀</div >😀</div>" := by
      rw [← hpiece.snippetAt_eq, hslice.snippetAt_eq]
    subst hsame
    exact hfinds (Nat.le_trans (by decide +kernel) hlong)
  exact ⟨hopens, hcloses, hspared 26 (Nat.le_refl 26), hspared Size.largest (by decide)⟩

end MarkupSeeds.Extractor
