import Mathlib.Data.List.Nodup
import MarkupSeeds.Corpus

/-!
# Members of a corpus

A corpus is determined by its members.  Each of them has one position, and inserting texts makes
the corpus larger by no more than their number.
-/

namespace MarkupSeeds

namespace Sorted

theorem length_insert? {text : String} {texts placed : List String}
    (hplaced : insert? text texts = some placed) : placed.length = texts.length + 1 := by
  induction texts generalizing placed with
  | nil =>
      cases hplaced
      rfl
  | cons head rest ih =>
      rw [insert?] at hplaced
      split at hplaced
      · cases hplaced
        rfl
      split at hplaced
      · cases hplaced
      · obtain ⟨others, hothers, rfl⟩ := Option.map_eq_some_iff.mp hplaced
        rw [List.length_cons, ih hothers, List.length_cons]

/-- The position of a text is the number of smaller ones. -/
theorem getElem?_eq_some_iff {texts : List String} (hsorted : Ascending texts) {index : Nat}
    {text : String} :
    texts[index]? = some text ↔ text ∈ texts ∧ (texts.filter (· < text)).length = index := by
  induction texts generalizing index with
  | nil => simp
  | cons head rest ih =>
      obtain ⟨hhead, hrest⟩ := List.pairwise_cons.mp hsorted
      have hfirst : (head :: rest).filter (· < head) = [] := by
        rw [List.filter_eq_nil_iff]
        intro t hmem hless
        rcases List.mem_cons.mp hmem with rfl | hlater
        · exact String.lt_irrefl _ (of_decide_eq_true hless)
        · exact String.lt_irrefl _ (String.lt_trans (hhead t hlater) (of_decide_eq_true hless))
      have hlater : text ∈ rest → (head :: rest).filter (· < text) =
          head :: rest.filter (· < text) := by
        intro hmem
        exact List.filter_cons_of_pos (by simpa using hhead text hmem)
      cases index with
      | zero =>
          rw [List.getElem?_cons_zero, Option.some.injEq, List.length_eq_zero_iff, List.mem_cons]
          constructor
          · rintro rfl
            exact ⟨Or.inl rfl, hfirst⟩
          · rintro ⟨rfl | hmem, hnone⟩
            · rfl
            · rw [hlater hmem] at hnone
              cases hnone
      | succ index =>
          rw [List.getElem?_cons_succ, ih hrest, List.mem_cons]
          constructor
          · rintro ⟨hmem, hcount⟩
            exact ⟨Or.inr hmem, by rw [hlater hmem, List.length_cons, hcount]⟩
          · rintro ⟨rfl | hmem, hcount⟩
            · rw [hfirst] at hcount
              cases hcount
            · rw [hlater hmem, List.length_cons, Nat.add_right_cancel_iff] at hcount
              exact ⟨hmem, hcount⟩

end Sorted

namespace Corpus

theorem nodup_texts (c : Corpus) : c.texts.Nodup :=
  c.ascending.imp String.ne_of_lt

theorem eq_of_mem_iff {left right : Corpus}
    (hmem : ∀ t, t ∈ left.texts ↔ t ∈ right.texts) : left = right :=
  Corpus.ext (Sorted.eq_of_mem_iff left.ascending right.ascending hmem)

/-! ## Positions -/

theorem mem_of_at? {c : Corpus} {index : Nat} {text : String} (hat : c.at? index = some text) :
    text ∈ c.texts :=
  List.mem_of_getElem? hat

theorem exists_at? {c : Corpus} {index : Nat} (hlt : index < c.size) :
    ∃ text, c.at? index = some text :=
  ⟨c.texts[index], List.getElem?_eq_getElem hlt⟩

theorem eq_of_at? {c : Corpus} {left right : Nat} {text : String}
    (hleft : c.at? left = some text) (hright : c.at? right = some text) : left = right := by
  obtain ⟨hlt, htext⟩ := List.getElem?_eq_some_iff.mp hleft
  obtain ⟨hlt', htext'⟩ := List.getElem?_eq_some_iff.mp hright
  exact c.nodup_texts.getElem_inj_iff.mp (htext.trans htext'.symm)

/-! ## Inserting texts -/

theorem insert?_eq_none_iff {c : Corpus} {text : String} :
    c.insert? text = none ↔ text ∈ c.texts := by
  rw [← Sorted.insert?_eq_none_iff c.ascending, insert?]
  split <;> simp_all

theorem size_insert_le (c : Corpus) (text : String) : (c.insert text).size ≤ c.size + 1 := by
  rw [size, texts_insert, Sorted.insert, size]
  cases hplaced : Sorted.insert? text c.texts with
  | none => exact Nat.le_succ _
  | some placed => exact Nat.le_of_eq (Sorted.length_insert? hplaced)

theorem size_extend_le (c : Corpus) (texts : List String) :
    (c.extend texts).size ≤ c.size + texts.length := by
  induction texts generalizing c with
  | nil => exact Nat.le_refl _
  | cons text rest ih =>
      calc
        (c.extend (text :: rest)).size ≤ (c.insert text).size + rest.length := ih _
        _ ≤ c.size + 1 + rest.length := Nat.add_le_add_right (size_insert_le c text) _
        _ = c.size + (text :: rest).length := by rw [List.length_cons]; omega

theorem extend_append (c : Corpus) (texts more : List String) :
    c.extend (texts ++ more) = (c.extend texts).extend more :=
  List.foldl_append

theorem size_ofList_le (texts : List String) : (ofList texts).size ≤ texts.length := by
  have hle := size_extend_le empty texts
  rwa [show empty.size = 0 from rfl, Nat.zero_add] at hle

theorem mem_ofList (texts : List String) (t : String) : t ∈ (ofList texts).texts ↔ t ∈ texts := by
  rw [ofList, mem_extend]
  exact or_iff_right List.not_mem_nil

theorem size_ofList_eq_zero_iff {texts : List String} :
    (ofList texts).size = 0 ↔ texts.length = 0 := by
  rw [size, List.length_eq_zero_iff, List.length_eq_zero_iff, List.eq_nil_iff_forall_not_mem,
    List.eq_nil_iff_forall_not_mem]
  simp only [mem_ofList]

end Corpus

end MarkupSeeds
