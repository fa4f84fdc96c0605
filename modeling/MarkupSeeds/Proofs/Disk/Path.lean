import MarkupSeeds.Disk.Path
import MarkupSeeds.Disk.Tree

/-!
# Segments of joined paths

A path leads to an entry of a directory through the segments of the directory.  Which
these are depends on how the path of the directory ends: an empty path has none, and the
empty segment behind a slash at the end is taken up by the name.
-/

namespace MarkupSeeds

/-! ## Pieces between separators -/

theorem splitAt_ne_nil (separator : Char) (chars : List Char) : splitAt separator chars ≠ [] := by
  cases chars with
  | nil => exact List.cons_ne_nil _ _
  | cons c rest =>
      rw [splitAt]
      split
      · exact List.cons_ne_nil _ _
      · split <;> exact List.cons_ne_nil _ _

theorem splitAt_cons_of_ne {separator c : Char} (hne : c ≠ separator) {rest piece : List Char}
    {pieces : List (List Char)} (hrest : splitAt separator rest = piece :: pieces) :
    splitAt separator (c :: rest) = (c :: piece) :: pieces := by
  rw [splitAt, if_neg hne, hrest]

theorem splitAt_append (separator : Char) (left right : List Char) :
    splitAt separator (left ++ separator :: right) =
      splitAt separator left ++ splitAt separator right := by
  induction left with
  | nil => simp [splitAt]
  | cons c left ih =>
      by_cases hsep : c = separator
      · simp [splitAt, hsep, ih]
      · obtain ⟨piece, pieces, hleft⟩ := List.exists_cons_of_ne_nil (splitAt_ne_nil separator left)
        rw [hleft, List.cons_append] at ih
        rw [List.cons_append, splitAt_cons_of_ne hsep ih, splitAt_cons_of_ne hsep hleft,
          List.cons_append]

theorem splitAt_of_not_mem {separator : Char} {chars : List Char} (hfree : separator ∉ chars) :
    splitAt separator chars = [chars] := by
  induction chars with
  | nil => rfl
  | cons c chars ih =>
      rw [List.mem_cons, not_or] at hfree
      exact splitAt_cons_of_ne (Ne.symm hfree.1) (ih hfree.2)

namespace Path

/-- The segments that lead to the names joined to a directory. -/
def stem (dir : Path) : List String :=
  match dir.text.toList.getLast? with
  | none => []
  | some '/' => dir.segments.dropLast
  | some _ => dir.segments

theorem stem_subset (dir : Path) : dir.stem ⊆ dir.segments := by
  rw [stem]
  split
  · exact List.nil_subset _
  · exact List.dropLast_subset _
  · exact List.Subset.refl _

/-- A slash ends one segment and begins the next. -/
theorem segments_slash (front rest : String) :
    (⟨front ++ "/" ++ rest⟩ : Path).segments =
      (⟨front⟩ : Path).segments ++ (⟨rest⟩ : Path).segments := by
  have htext : (front ++ "/" ++ rest).toList = front.toList ++ '/' :: rest.toList := by simp
  rw [segments, htext, splitAt_append, List.map_append]
  rfl

/-- What contains no slash is a segment of its own. -/
theorem segments_of_not_mem {name : String} (hslash : '/' ∉ name.toList) :
    (⟨name⟩ : Path).segments = [name] := by
  rw [segments, splitAt_of_not_mem hslash, List.map_singleton, String.ofList_toList]

/-- A path that is not empty has a front to which names are joined with a slash. -/
theorem exists_front {dir : Path} (hne : dir.text ≠ "") :
    ∃ front, dir.stem = (⟨front⟩ : Path).segments ∧
      (∀ name, dir.join name = ⟨front ++ "/" ++ name⟩) ∧
      (dir.segments = dir.stem ∨ dir.segments = dir.stem ++ [""]) := by
  have hchars : dir.text.toList ≠ [] := fun hnil => hne (String.toList_injective hnil)
  have hlast := List.getLast?_eq_some_getLast hchars
  generalize dir.text.toList.getLast hchars = c at hlast
  by_cases hslash : c = '/'
  · subst hslash
    obtain ⟨front, hfront⟩ := List.getLast?_eq_some_iff.mp hlast
    have htext : dir.text = String.ofList front ++ "/" := by
      apply String.toList_injective
      simp [hfront]
    have hsegments : dir.segments = (⟨String.ofList front⟩ : Path).segments ++ [""] := by
      have hblank : (⟨""⟩ : Path).segments = [""] := segments_of_not_mem (by decide)
      rw [← hblank, ← segments_slash, String.append_empty, ← htext]
    have hstem : dir.stem = (⟨String.ofList front⟩ : Path).segments := by
      simp only [stem, hlast, hsegments, List.dropLast_concat]
    refine ⟨String.ofList front, hstem, ?_, Or.inr (hstem ▸ hsegments)⟩
    intro name
    simp only [join, hlast]
    rw [htext]
  · have hstem : dir.stem = dir.segments := by
      rw [stem, hlast]
      split <;> simp_all
    refine ⟨dir.text, hstem, ?_, Or.inl hstem.symm⟩
    intro name
    rw [join, hlast]
    split <;> simp_all

theorem segments_join (dir : Path) {name : String} (hname : IsName name) :
    (dir.join name).segments = dir.stem ++ [name] := by
  by_cases hempty : dir.text = ""
  · obtain ⟨text⟩ := dir
    subst hempty
    exact segments_of_not_mem hname.1
  · obtain ⟨front, hstem, hjoin, -⟩ := exists_front hempty
    rw [hjoin, hstem, segments_slash, segments_of_not_mem hname.1]

/-- Different names lead to different paths. -/
theorem join_injective (dir : Path) : Function.Injective dir.join := by
  intro left right heq
  by_cases hempty : dir.text = ""
  · obtain ⟨text⟩ := dir
    subst hempty
    exact Path.mk.inj heq
  · obtain ⟨front, -, hjoin, -⟩ := exists_front hempty
    rw [hjoin, hjoin, Path.mk.injEq, String.append_right_inj] at heq
    exact heq

/-- A name that is joined to a directory makes the path longer by as much at least. -/
theorem utf8ByteSize_le_join (dir : Path) (name : String) :
    dir.text.utf8ByteSize + name.utf8ByteSize ≤ (dir.join name).text.utf8ByteSize := by
  rw [join]
  split
  · rename_i hnone
    have hempty : dir.text = "" := String.toList_injective (List.getLast?_eq_none_iff.mp hnone)
    exact Nat.le_of_eq (by rw [hempty, String.utf8ByteSize_empty, Nat.zero_add])
  · exact Nat.le_of_eq (String.utf8ByteSize_append ..).symm
  · rw [String.utf8ByteSize_append, String.utf8ByteSize_append]
    omega

theorem fault?_eq_none_iff {path : Path} :
    path.fault? = none ↔
      '\x00' ∉ path.text.toList ∧ path.text ≠ "" ∧ path.text.utf8ByteSize < lengthLimit := by
  rw [fault?]
  split
  · simp_all
  · split
    · simp_all
    · split
      · simp_all
      · simp_all

theorem isAbsolute_join (dir : Path) {name : String} (hname : IsName name) :
    (dir.join name).isAbsolute = dir.isAbsolute := by
  obtain ⟨text⟩ := dir
  by_cases hempty : text = ""
  · subst hempty
    have hhead : name.toList.head? ≠ some '/' := fun hslash => hname.1 (List.mem_of_head? hslash)
    simpa [join, isAbsolute] using hhead
  · have hchars : text.toList ≠ [] := fun hnil => hempty (String.toList_injective hnil)
    obtain ⟨c, rest, hhead⟩ := List.exists_cons_of_ne_nil hchars
    rw [isAbsolute, isAbsolute, join]
    split
    · rename_i hlast
      exact absurd (List.getLast?_eq_none_iff.mp hlast) hchars
    · rw [String.toList_append, hhead, List.cons_append, List.head?_cons, List.head?_cons]
    · rw [String.append_assoc, String.toList_append, hhead, List.cons_append, List.head?_cons,
        List.head?_cons]

end Path

end MarkupSeeds
