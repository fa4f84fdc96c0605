import Mathlib.Data.String.Basic
import MarkupSeeds.Proofs.Text.Order

/-!
# Comparing texts

A comparison of two texts says whether the first one is less than, equal to or greater than the
second.  It may go through their bytes or through their code points, element by element up to the
first difference or the end of one of them.  Both forms keep smaller texts smaller, and that alone
decides every comparison, so the two never disagree.
-/

namespace MarkupSeeds.Utf8

/-- The comparison of the stored forms, byte by byte. -/
def compareBytes (left right : String) : Ordering :=
  List.compareLex compare (encode left) (encode right)

def codePoints (text : String) : List Nat := text.toList.map Char.toNat

def compareCodePoints (left right : String) : Ordering :=
  List.compareLex compare (codePoints left) (codePoints right)

section

variable {α : Type} [LT α] {cmp : α → α → Ordering} [Std.LawfulLTCmp cmp] [Std.LawfulEqCmp cmp]

/-- The comparison by the first difference finds the order of lists. -/
instance lawfulLTCmp_compareLex : Std.LawfulLTCmp (List.compareLex cmp) where
  eq_lt_iff_lt {left right} := by
    induction left generalizing right with
    | nil => cases right <;> simp [List.compareLex_nil_nil, List.compareLex_nil_cons]
    | cons x left ih =>
        cases right with
        | nil => simp [List.compareLex_cons_nil]
        | cons y right =>
            rw [List.compareLex_cons_cons, Ordering.then_eq_lt, ih, Std.LawfulLTCmp.eq_lt_iff_lt,
              Std.LawfulEqCmp.compare_eq_iff_eq, List.cons_lt_cons_iff]

/-- A form that keeps smaller texts smaller compares as the texts do. -/
theorem compareLex_eq_compare {form : String → List α}
    (hform : ∀ {left right : String}, left < right → form left < form right)
    (left right : String) :
    List.compareLex cmp (form left) (form right) = compare left right := by
  cases hcompare : compare left right with
  | lt =>
      have hlt : left < right := Std.LawfulLTCmp.eq_lt_iff_lt.mp hcompare
      exact Std.LawfulLTCmp.eq_lt_iff_lt.mpr (hform hlt)
  | eq =>
      rw [Std.compare_eq_iff_eq.mp hcompare]
      exact Std.ReflCmp.compare_self
  | gt =>
      have hlt : right < left := Std.LawfulLTCmp.eq_gt_iff_gt.mp hcompare
      exact Std.LawfulLTCmp.eq_gt_iff_gt.mpr (hform hlt)

end

theorem codePoints_lt {left right : String} (hlt : left < right) :
    codePoints left < codePoints right :=
  List.map_lt (fun _ _ hchar => hchar) hlt

theorem compareBytes_eq_compare (left right : String) :
    compareBytes left right = compare left right :=
  compareLex_eq_compare encode_lt_encode_iff.mpr left right

theorem compareCodePoints_eq_compare (left right : String) :
    compareCodePoints left right = compare left right :=
  compareLex_eq_compare codePoints_lt left right

theorem compareBytes_eq_lt_iff {left right : String} :
    compareBytes left right = .lt ↔ left < right := by
  rw [compareBytes_eq_compare, Std.LawfulLTCmp.eq_lt_iff_lt]

end MarkupSeeds.Utf8
