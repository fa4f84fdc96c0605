import MarkupSeeds.Markup.Shape
import MarkupSeeds.Markup.Tag
import Mathlib.Data.List.Basic

/-!
# The forms of tags

Tags described by their bytes alone, without a search: `IsOpening` and `IsClosing`
say what a tag of a name looks like from its `<` to its `>`.  The recognisers
find exactly the tags of these forms.  A name of letters and digits contains no
`>`, so every tag of such a name ends at the first `>` after its `<`, and no two
tags of different lengths begin at the same place.
-/

namespace MarkupSeeds

namespace Markup

/-- Words that differ at most in the case of ASCII letters. -/
def SameLetters (left right : Bytes) : Prop := left.map lower = right.map lower

/-- An opening tag.  Attributes, if there are any, are set off by a slash or a blank
and reach up to the first `>`. -/
def IsOpening (name tag : Bytes) : Prop :=
  ∃ word attributes, tag = lt :: (word ++ (attributes ++ [gt])) ∧ SameLetters word name ∧
    gt ∉ attributes ∧ ∀ b ∈ attributes.head?, b = slash ∨ isBlank b

/-- A closing tag.  Blanks before its `>` are allowed only if it may be `spaced`. -/
def IsClosing (spaced : Bool) (name tag : Bytes) : Prop :=
  ∃ word blanks, tag = lt :: slash :: (word ++ (blanks ++ [gt])) ∧ SameLetters word name ∧
    (∀ b ∈ blanks, isBlank b) ∧ (spaced = false → blanks = [])

/-- An opening tag of one of the names. -/
def IsOpeningOf (names : List Bytes) (tag : Bytes) : Prop := ∃ name ∈ names, IsOpening name tag

/-- A closing tag of one of the names. -/
def IsClosingOf (spaced : Bool) (names : List Bytes) (tag : Bytes) : Prop :=
  ∃ name ∈ names, IsClosing spaced name tag

theorem isOpeningOf_singleton (name : Bytes) : IsOpeningOf [name] = IsOpening name := by
  funext tag
  simp only [IsOpeningOf, List.mem_singleton, exists_eq_left]

theorem isClosingOf_singleton (spaced : Bool) (name : Bytes) :
    IsClosingOf spaced [name] = IsClosing spaced name := by
  funext tag
  simp only [IsClosingOf, List.mem_singleton, exists_eq_left]

/-- An exact closing tag is a closing tag that may have blanks. -/
theorem IsClosing.of_exact {name tag : Bytes} (hclosing : IsClosing false name tag) :
    IsClosing true name tag := by
  obtain ⟨word, blanks, htag, hsame, hblanks, -⟩ := hclosing
  exact ⟨word, blanks, htag, hsame, hblanks, Bool.noConfusion⟩

theorem SameLetters.length_eq {left right : Bytes} (hsame : SameLetters left right) :
    left.length = right.length := by
  simpa using congrArg List.length hsame

/-! ## The recognisers -/

/-- A name is spelled letter by letter. -/
theorem exists_word_cons_iff {n b : UInt8} {name tail rest : Bytes} :
    (∃ word, b :: tail = word ++ rest ∧ SameLetters word (n :: name)) ↔
      lower n = lower b ∧ ∃ word, tail = word ++ rest ∧ SameLetters word name := by
  constructor
  · intro hspelled
    obtain ⟨word, hword, hsame⟩ := hspelled
    cases word with
    | nil => cases hsame
    | cons c word =>
        rw [List.cons_append, List.cons.injEq] at hword
        rw [SameLetters, List.map_cons, List.map_cons, List.cons.injEq] at hsame
        have hletter : lower n = lower b := by rw [hword.1, hsame.1]
        exact ⟨hletter, word, hword.2, hsame.2⟩
  · intro hspelled
    obtain ⟨hletter, word, rfl, hsame⟩ := hspelled
    have hwhole : SameLetters (b :: word) (n :: name) := by
      rw [SameLetters, List.map_cons, List.map_cons, hletter, hsame]
    exact ⟨b :: word, rfl, hwhole⟩

theorem afterName?_eq_some_iff {name tail rest : Bytes} :
    afterName? name tail = some rest ↔ ∃ word, tail = word ++ rest ∧ SameLetters word name := by
  induction name generalizing tail with
  | nil =>
      simp only [afterName?, Option.some.injEq, SameLetters, List.map_nil, List.map_eq_nil_iff]
      constructor
      · intro hrest
        exact ⟨[], hrest, rfl⟩
      · intro hspelled
        obtain ⟨word, htail, hword⟩ := hspelled
        rw [htail, hword, List.nil_append]
  | cons n name ih =>
      cases tail with
      | nil =>
          simp only [afterName?, reduceCtorEq, false_iff, not_exists, not_and]
          intro word hword hsame
          rw [(List.append_eq_nil_iff.mp hword.symm).1] at hsame
          cases hsame
      | cons b tail =>
          rw [exists_word_cons_iff, ← ih, afterName?]
          split
          · rename_i hletter
            simp only [hletter, true_and]
          · rename_i hletter
            simp only [hletter, false_and, reduceCtorEq]

theorem attributes?_eq_some_iff {name tail rest : Bytes} :
    attributes? name tail = some rest ↔
      afterName? name tail = some rest ∧ ∃ b ∈ rest.head?, isBoundary b := by
  rw [attributes?]
  cases hafter : afterName? name tail with
  | none => simp
  | some after =>
      cases after with
      | nil =>
          simp only [reduceCtorEq, Option.some.injEq, false_iff, not_and, not_exists]
          intro hrest
          simp [← hrest]
      | cons b after =>
          by_cases hboundary : isBoundary b
          · simp only [hboundary, if_true, Option.some.injEq]
            constructor
            · intro hrest
              exact ⟨hrest, b, hrest ▸ rfl, hboundary⟩
            · exact And.left
          · simp only [hboundary, Option.some.injEq, Bool.false_eq_true, if_false, reduceCtorEq,
              false_iff, not_and, not_exists]
            intro hrest c hhead
            rw [← hrest, List.head?_cons, Option.mem_some_iff] at hhead
            exact hhead ▸ hboundary

theorem throughGt?_append_of_not_mem {front : Bytes} (hfree : gt ∉ front) (rest : Bytes) :
    throughGt? (front ++ rest) = (throughGt? rest).map (front.length + ·) := by
  have hfront : front.findIdx? (· == gt) = none := by
    rw [List.findIdx?_eq_none_iff]
    intro b hmem
    exact beq_false_of_ne fun heq => hfree (heq ▸ hmem)
  rw [throughGt?, throughGt?, List.findIdx?_append, hfront, Option.none_or, Option.map_map,
    Option.map_map]
  congr 1
  funext n
  simp only [Function.comp_apply]
  omega

theorem throughGt?_gt (rest : Bytes) : throughGt? (gt :: rest) = some 1 := by
  simp [throughGt?, List.findIdx?_cons]

theorem throughGt?_eq_some_iff {bytes : Bytes} {n : Nat} :
    throughGt? bytes = some n ↔
      ∃ front rest, bytes = front ++ gt :: rest ∧ gt ∉ front ∧ n = front.length + 1 := by
  constructor
  · intro hthrough
    obtain ⟨index, hindex, rfl⟩ := Option.map_eq_some_iff.mp hthrough
    obtain ⟨hbound, hgt, hbefore⟩ := List.findIdx?_eq_some_iff_getElem.mp hindex
    refine ⟨bytes.take index, bytes.drop (index + 1), ?_, ?_, ?_⟩
    · rw [← eq_of_beq hgt, List.getElem_cons_drop, List.take_append_drop]
    · intro hmem
      obtain ⟨j, hj, heq⟩ := List.getElem_of_mem hmem
      rw [List.length_take] at hj
      rw [List.getElem_take] at heq
      exact hbefore j (by omega) (beq_iff_eq.mpr heq)
    · rw [List.length_take]
      omega
  · intro hfirst
    obtain ⟨front, rest, hbytes, hfree, hn⟩ := hfirst
    rw [hbytes, hn, throughGt?_append_of_not_mem hfree, throughGt?_gt]
    rfl

/-- The first `>` is the first one of every rest that still has it. -/
theorem throughGt?_drop {bytes : Bytes} {n k : Nat} (hthrough : throughGt? bytes = some n)
    (hk : k < n) : throughGt? (bytes.drop k) = some (n - k) := by
  obtain ⟨front, rest, rfl, hfree, rfl⟩ := throughGt?_eq_some_iff.mp hthrough
  have hdrop : (front ++ gt :: rest).drop k = front.drop k ++ gt :: rest :=
    List.drop_append_of_le_length (Nat.le_of_lt_succ hk)
  rw [hdrop, throughGt?_eq_some_iff]
  refine ⟨front.drop k, rest, rfl, fun hmem => hfree (List.mem_of_mem_drop hmem), ?_⟩
  rw [List.length_drop]
  omega

theorem throughGt?_le_of_getElem? {bytes : Bytes} {n i : Nat} (hthrough : throughGt? bytes = some n)
    (hgt : bytes[i]? = some gt) : n ≤ i + 1 := by
  obtain ⟨front, rest, rfl, hfree, rfl⟩ := throughGt?_eq_some_iff.mp hthrough
  by_contra hbefore
  rw [List.getElem?_append_left (by omega)] at hgt
  exact hfree (List.mem_of_getElem? hgt)

/-- What the recogniser of opening tags finds is an opening tag of the name that it reports. -/
theorem isOpening_of_opening? {names : List Bytes} {tail : Bytes} {tag : Opening}
    (htag : opening? names tail = some tag) :
    tag.name ∈ names ∧ ∃ piece rest, lt :: tail = piece ++ rest ∧
      piece.length = 1 + tag.length ∧ IsOpening tag.name piece := by
  obtain ⟨⟨name, after⟩, hfound, hthrough⟩ := Option.bind_eq_some_iff.mp htag
  obtain ⟨through, hgt, hreturn⟩ := Option.bind_eq_some_iff.mp hthrough
  cases hreturn
  obtain ⟨candidate, hmem, hcandidate⟩ := List.exists_of_findSome?_eq_some hfound
  obtain ⟨rest, hafter, hpair⟩ := Option.map_eq_some_iff.mp hcandidate
  cases hpair
  obtain ⟨hname, b, hhead, hboundary⟩ := attributes?_eq_some_iff.mp hafter
  obtain ⟨word, rfl, hsame⟩ := afterName?_eq_some_iff.mp hname
  obtain ⟨attributes, behind, rfl, hfree, rfl⟩ := throughGt?_eq_some_iff.mp hgt
  refine ⟨hmem, lt :: (word ++ (attributes ++ [gt])), behind, by simp, ?_, word, attributes, rfl,
    hsame, hfree, ?_⟩
  · rw [← hsame.length_eq]
    simp only [List.length_cons, List.length_append, List.length_nil]
    omega
  · intro c hc
    obtain ⟨others, rfl⟩ := List.head?_eq_some_iff.mp hc
    rw [List.cons_append, List.head?_cons, Option.mem_some_iff] at hhead
    subst hhead
    have hne : c ≠ gt := fun heq => hfree (heq ▸ List.mem_cons_self)
    simpa [isBoundary, hne] using hboundary

theorem gap_append {spaced : Bool} {blanks : Bytes} (hblanks : ∀ b ∈ blanks, isBlank b)
    (hspaced : spaced = false → blanks = []) (rest : Bytes) :
    gap spaced (blanks ++ gt :: rest) = blanks.length := by
  cases spaced with
  | false =>
      rw [hspaced rfl]
      rfl
  | true =>
      have hstop : (gt :: rest).takeWhile isBlank = [] := rfl
      rw [gap, if_pos rfl, List.takeWhile_append_of_pos hblanks, hstop, List.append_nil]

theorem exists_blanks_of_gap {spaced : Bool} {rest : Bytes}
    (hgt : (rest.drop (gap spaced rest)).head? = some gt) :
    ∃ blanks behind, rest = blanks ++ gt :: behind ∧ (∀ b ∈ blanks, isBlank b) ∧
      (spaced = false → blanks = []) := by
  obtain ⟨behind, hbehind⟩ := List.head?_eq_some_iff.mp hgt
  refine ⟨rest.take (gap spaced rest), behind, ?_, ?_, ?_⟩
  · rw [← hbehind, List.take_append_drop]
  · intro b hmem
    cases spaced with
    | false => simp [gap] at hmem
    | true =>
        rw [gap, if_pos rfl, ← List.prefix_iff_eq_take.mp (List.takeWhile_prefix isBlank)] at hmem
        exact List.all_eq_true.mp List.all_takeWhile b hmem
  · intro hexact
    rw [hexact]
    rfl

/-- The recogniser of closing tags finds exactly the closing tags of a name. -/
theorem closing?_eq_some_iff {spaced : Bool} {name tail : Bytes} {n : Nat} :
    closing? spaced name tail = some n ↔
      ∃ piece rest, lt :: tail = piece ++ rest ∧ piece.length = 1 + n ∧
        IsClosing spaced name piece := by
  constructor
  · intro hclosing
    cases tail with
    | nil => cases hclosing
    | cons b tail =>
        rw [closing?] at hclosing
        split at hclosing
        · rename_i hslash
          subst hslash
          cases hafter : afterName? name tail with
          | none => simp [hafter] at hclosing
          | some after =>
              simp only [hafter] at hclosing
              split at hclosing
              · rename_i hgt
                cases hclosing
                obtain ⟨word, rfl, hsame⟩ := afterName?_eq_some_iff.mp hafter
                obtain ⟨blanks, behind, rfl, hblanks, hspaced⟩ := exists_blanks_of_gap hgt
                refine ⟨lt :: slash :: (word ++ (blanks ++ [gt])), behind, by simp, ?_, word,
                  blanks, rfl, hsame, hblanks, hspaced⟩
                rw [gap_append hblanks hspaced, ← hsame.length_eq]
                simp only [List.length_cons, List.length_append, List.length_nil]
                omega
              · cases hclosing
        · cases hclosing
  · intro hfound
    obtain ⟨piece, rest, htail, hlength, word, blanks, rfl, hsame, hblanks, hspaced⟩ := hfound
    have hbody : tail = slash :: (word ++ (blanks ++ gt :: rest)) := by
      simpa using (List.cons.inj htail).2
    have hafter : afterName? name (word ++ (blanks ++ gt :: rest)) =
        some (blanks ++ gt :: rest) := afterName?_eq_some_iff.mpr ⟨word, rfl, hsame⟩
    have hgap := gap_append hblanks hspaced rest
    have hn : 1 + name.length + blanks.length + 1 = n := by
      rw [← hsame.length_eq]
      simp only [List.length_cons, List.length_append, List.length_nil] at hlength
      omega
    rw [hbody, closing?, if_pos rfl, hafter]
    simp only [hgap, List.drop_left, List.head?_cons, if_true, hn]

theorem closing?_of_isClosing {spaced : Bool} {name tail piece rest : Bytes}
    (htail : lt :: tail = piece ++ rest) (hpiece : IsClosing spaced name piece) :
    closing? spaced name tail = some (piece.length - 1) := by
  have hlength : piece.length = 1 + (piece.length - 1) := by
    obtain ⟨word, blanks, rfl, -⟩ := hpiece
    exact Nat.add_comm ..
  exact closing?_eq_some_iff.mpr ⟨piece, rest, htail, hlength, hpiece⟩

/-! ## Names of letters and digits -/

def isLabelByte (b : UInt8) : Bool := (0x61 ≤ b && b ≤ 0x7A) || (0x30 ≤ b && b ≤ 0x39)

/-- The names of tags consist of lowercase letters and digits. -/
def IsLabel (name : Bytes) : Prop := name ≠ [] ∧ ∀ b ∈ name, isLabelByte b

theorem lower_of_isLabelByte {b : UInt8} (hlabel : isLabelByte b) : lower b = b := by
  rw [lower, if_neg]
  simp only [isLabelByte, Bool.or_eq_true, Bool.and_eq_true, decide_eq_true_eq,
    UInt8.le_iff_toNat_le] at hlabel ⊢
  change ¬(65 ≤ b.toNat ∧ b.toNat ≤ 90)
  change (97 ≤ b.toNat ∧ b.toNat ≤ 122) ∨ (48 ≤ b.toNat ∧ b.toNat ≤ 57) at hlabel
  omega

/-- However a name is spelled, its bytes are letters and digits. -/
theorem SameLetters.isLabelByte_lower {word name : Bytes} (hsame : SameLetters word name)
    (hlabel : IsLabel name) : ∀ b ∈ word, isLabelByte (lower b) := by
  intro b hmem
  have hlower : lower b ∈ name.map lower := hsame ▸ List.mem_map_of_mem hmem
  obtain ⟨c, hc, heq⟩ := List.mem_map.mp hlower
  have hbyte := hlabel.2 c hc
  rw [← heq, lower_of_isLabelByte hbyte]
  exact hbyte

theorem SameLetters.gt_not_mem {word name : Bytes} (hsame : SameLetters word name)
    (hlabel : IsLabel name) : gt ∉ word := by
  intro hmem
  exact absurd (hsame.isLabelByte_lower hlabel gt hmem) (by decide)

theorem SameLetters.lt_not_mem {word name : Bytes} (hsame : SameLetters word name)
    (hlabel : IsLabel name) : lt ∉ word := by
  intro hmem
  exact absurd (hsame.isLabelByte_lower hlabel lt hmem) (by decide)

/-- A tag ends at the first `>`. -/
theorem IsOpening.throughGt?_append {name piece : Bytes} (hpiece : IsOpening name piece)
    (hlabel : IsLabel name) (rest : Bytes) :
    throughGt? (piece ++ rest) = some piece.length := by
  obtain ⟨word, attributes, rfl, hsame, hfree, -⟩ := hpiece
  have hfront : gt ∉ lt :: (word ++ attributes) := by
    simp only [List.mem_cons, List.mem_append, not_or]
    exact ⟨by decide, hsame.gt_not_mem hlabel, hfree⟩
  rw [throughGt?_eq_some_iff]
  exact ⟨lt :: (word ++ attributes), rest, by simp, hfront, by simp [Nat.add_assoc]⟩

theorem IsClosing.throughGt?_append {spaced : Bool} {name piece : Bytes}
    (hpiece : IsClosing spaced name piece) (hlabel : IsLabel name) (rest : Bytes) :
    throughGt? (piece ++ rest) = some piece.length := by
  obtain ⟨word, blanks, rfl, hsame, hblanks, -⟩ := hpiece
  have hfront : gt ∉ lt :: slash :: (word ++ blanks) := by
    simp only [List.mem_cons, List.mem_append, not_or]
    exact ⟨by decide, by decide, hsame.gt_not_mem hlabel,
      fun hmem => absurd (hblanks gt hmem) (by decide)⟩
  rw [throughGt?_eq_some_iff]
  exact ⟨lt :: slash :: (word ++ blanks), rest, by simp, hfront, by simp [Nat.add_assoc]⟩

theorem IsClosing.lt_not_mem_tail {spaced : Bool} {name tag : Bytes}
    (hclosing : IsClosing spaced name tag) (hlabel : IsLabel name) : lt ∉ tag.tail := by
  obtain ⟨word, blanks, rfl, hsame, hblanks, -⟩ := hclosing
  simp only [List.tail_cons, List.mem_cons, List.mem_append, List.not_mem_nil, or_false, not_or]
  exact ⟨by decide, hsame.lt_not_mem hlabel, fun hmem => absurd (hblanks lt hmem) (by decide),
    by decide⟩

theorem IsOpening.exists_attributes? {name tail piece rest : Bytes} (hpiece : IsOpening name piece)
    (htail : lt :: tail = piece ++ rest) : ∃ after, attributes? name tail = some after := by
  obtain ⟨word, attributes, rfl, hsame, -, hhead⟩ := hpiece
  have hbody : tail = word ++ (attributes ++ gt :: rest) := by
    simpa using (List.cons.inj htail).2
  have hboundary : ∃ b ∈ (attributes ++ gt :: rest).head?, isBoundary b := by
    cases attributes with
    | nil => exact ⟨gt, rfl, rfl⟩
    | cons b attributes =>
        refine ⟨b, rfl, ?_⟩
        rcases hhead b rfl with rfl | hblank
        · rfl
        · simp [isBoundary, hblank]
  have hafter := afterName?_eq_some_iff.mpr ⟨word, hbody, hsame⟩
  exact ⟨_, attributes?_eq_some_iff.mpr ⟨hafter, hboundary⟩⟩

/-- The first `>` after a `<` and a name is the first one after the name. -/
theorem throughGt?_of_attributes? {name tail after : Bytes} (hlabel : IsLabel name)
    (hafter : attributes? name tail = some after) :
    throughGt? (lt :: tail) = (throughGt? after).map (name.length + 1 + ·) := by
  obtain ⟨word, rfl, hsame⟩ := afterName?_eq_some_iff.mp (attributes?_eq_some_iff.mp hafter).1
  have hskip : gt ∉ lt :: word := by
    simp only [List.mem_cons, not_or]
    exact ⟨by decide, hsame.gt_not_mem hlabel⟩
  rw [← List.cons_append, throughGt?_append_of_not_mem hskip, List.length_cons, hsame.length_eq]

/-- An opening tag of one of the names is found, if perhaps by another of them. -/
theorem exists_opening?_of_isOpening {names : List Bytes} {name tail piece rest : Bytes}
    (hlabels : ∀ name ∈ names, IsLabel name) (hname : name ∈ names)
    (htail : lt :: tail = piece ++ rest) (hpiece : IsOpening name piece) :
    ∃ tag, opening? names tail = some tag ∧ piece.length = 1 + tag.length := by
  have hend : throughGt? (lt :: tail) = some piece.length :=
    htail ▸ hpiece.throughGt?_append (hlabels name hname) rest
  obtain ⟨fits, hfits⟩ := hpiece.exists_attributes? htail
  obtain ⟨⟨found, after⟩, hfound⟩ : ∃ result,
      names.findSome? (fun name => (attributes? name tail).map (name, ·)) = some result := by
    rw [← Option.isSome_iff_exists, List.findSome?_isSome_iff]
    exact ⟨name, hname, by rw [hfits]; rfl⟩
  obtain ⟨candidate, hmem, hcandidate⟩ := List.exists_of_findSome?_eq_some hfound
  obtain ⟨result, hresult, hpair⟩ := Option.map_eq_some_iff.mp hcandidate
  cases hpair
  -- Both names end their tags at the same `>`, the first one of all.
  rw [throughGt?_of_attributes? (hlabels found hmem) hresult] at hend
  obtain ⟨through, hthrough, hlength⟩ := Option.map_eq_some_iff.mp hend
  refine ⟨⟨found, found.length + through⟩, ?_, ?_⟩
  · rw [opening?, hfound]
    simp [hthrough]
  · rw [← hlength]
    change _ = 1 + (found.length + through)
    omega

instance : DecidablePred IsLabel := fun name =>
  inferInstanceAs (Decidable (name ≠ [] ∧ ∀ b ∈ name, isLabelByte b))

theorem isLabel_of_mem_shapes {shape : Shape} (hshape : shape ∈ shapes) :
    ∀ name ∈ shape.labels, IsLabel name := by
  have hall : ∀ shape ∈ shapes, ∀ name ∈ shape.labels, IsLabel name := by decide +kernel
  exact hall shape hshape

end Markup

end MarkupSeeds
