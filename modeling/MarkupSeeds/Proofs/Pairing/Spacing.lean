import MarkupSeeds.Proofs.Pairing.Streams

/-!
# Spacing out and back

A spaced-out copy is made in one pass, but it is the text with one word replaced after another:
each `>` by itself and a space, then each `<` by a space and itself.  The two replacements do not
get in each other's way, so they can be taken back in either order, and spaces that were there
before are left alone: the space after a `>` that is taken away is always the one that was put
there.
-/

namespace MarkupSeeds

/-- Replaces the occurrences of a word by a copy, from left to right and without overlaps.  The
word must not be empty. -/
def replaceChars (word copy : List Char) : List Char → List Char
  | [] => []
  | c :: rest =>
    if word <+: c :: rest then copy ++ replaceChars word copy (rest.drop (word.length - 1))
    else c :: replaceChars word copy rest
termination_by chars => chars.length
decreasing_by all_goals simp only [List.length_drop, List.length_cons]; omega

def replaceEach (word copy text : String) : String :=
  String.ofList (replaceChars word.toList copy.toList text.toList)

section Words

variable {word copy chars : List Char} {c d pad : Char}

theorem replaceChars_append (hne : word ≠ []) (copy rest : List Char) :
    replaceChars word copy (word ++ rest) = copy ++ replaceChars word copy rest := by
  obtain ⟨c, others, rfl⟩ := List.exists_cons_of_ne_nil hne
  have hprefix : c :: others <+: c :: (others ++ rest) := List.prefix_append (c :: others) rest
  rw [List.cons_append, replaceChars, if_pos hprefix, List.length_cons, Nat.add_sub_cancel,
    List.drop_left]

theorem replaceChars_cons (copy : List Char) (hnot : ¬ word <+: c :: chars) :
    replaceChars word copy (c :: chars) = c :: replaceChars word copy chars := by
  rw [replaceChars, if_neg hnot]

theorem not_prefix_of_ne (hne : d ≠ c) : ¬ c :: word <+: d :: chars := by
  intro hprefix
  exact hne (List.cons_prefix_cons.mp hprefix).1.symm

/-! ## Single characters -/

theorem replaceChars_self (c : Char) (copy chars : List Char) :
    replaceChars [c] copy (c :: chars) = copy ++ replaceChars [c] copy chars :=
  replaceChars_append (List.cons_ne_nil c []) copy chars

/-- Replacing a character rewrites each character on its own. -/
theorem replaceChars_singleton (c : Char) (copy chars : List Char) :
    replaceChars [c] copy chars = chars.flatMap fun d => if d = c then copy else [d] := by
  induction chars with
  | nil => rw [replaceChars, List.flatMap_nil]
  | cons d chars ih =>
      rw [List.flatMap_cons]
      by_cases hd : d = c
      · rw [hd, replaceChars_self, ih, if_pos rfl]
      · rw [replaceChars_cons copy (not_prefix_of_ne hd), ih, if_neg hd]
        rfl

/-- Replacing two characters one after the other rewrites each character once, if the first copy
does not contain the second character. -/
theorem replaceChars_replaceChars {first second : List Char} (hne : c ≠ d) (hfree : c ∉ first)
    (chars : List Char) :
    replaceChars [c] second (replaceChars [d] first chars) =
      chars.flatMap fun x => if x = c then second else if x = d then first else [x] := by
  have hkept : (first.flatMap fun x => if x = c then second else [x]) = first := by
    calc
      (first.flatMap fun x => if x = c then second else [x]) = first.flatMap fun x => [x] := by
        apply List.flatMap_congr
        intro x hmem
        rw [if_neg]
        rintro rfl
        exact hfree hmem
      _ = first := List.flatMap_singleton' first
  rw [replaceChars_singleton, replaceChars_singleton, List.flatMap_assoc]
  congr 1
  funext x
  by_cases hd : x = d
  · have hc : x ≠ c := fun hc => hne (hc.symm.trans hd)
    rw [if_pos hd, hkept, if_neg hc]
  · rw [if_neg hd, List.flatMap_singleton]

/-- Padding put behind a character is what is found behind it afterwards. -/
theorem replaceChars_pad_behind (c pad : Char) (chars : List Char) :
    replaceChars [c, pad] [c] (replaceChars [c] [c, pad] chars) = chars := by
  induction chars with
  | nil => rw [replaceChars, replaceChars]
  | cons d chars ih =>
      by_cases hd : d = c
      · rw [hd, replaceChars_self, replaceChars_append (List.cons_ne_nil c [pad]), ih]
        rfl
      · rw [replaceChars_cons _ (not_prefix_of_ne hd), replaceChars_cons _ (not_prefix_of_ne hd),
          ih]

/-- Where padding is put before a character, the character never comes first. -/
theorem head?_replaceChars_ne (hpad : pad ≠ c) (chars : List Char) :
    (replaceChars [c] [pad, c] chars).head? ≠ some c := by
  cases chars with
  | nil => simp [replaceChars]
  | cons d chars =>
      by_cases hd : d = c
      · rw [hd, replaceChars_self]
        simpa using hpad
      · rw [replaceChars_cons _ (not_prefix_of_ne hd)]
        simpa using hd

/-- Padding put before a character is told from what was there, as the character itself cannot
follow on older padding. -/
theorem replaceChars_pad_before (hpad : pad ≠ c) (chars : List Char) :
    replaceChars [pad, c] [c] (replaceChars [c] [pad, c] chars) = chars := by
  induction chars with
  | nil => rw [replaceChars, replaceChars]
  | cons d chars ih =>
      by_cases hd : d = c
      · rw [hd, replaceChars_self, replaceChars_append (List.cons_ne_nil pad [c]), ih]
        rfl
      · have hnot : ¬ [pad, c] <+: d :: replaceChars [c] [pad, c] chars := by
          intro hprefix
          obtain ⟨rest, hrest⟩ := (List.cons_prefix_cons.mp hprefix).2
          apply head?_replaceChars_ne hpad chars
          rw [← hrest]
          rfl
        rw [replaceChars_cons _ (not_prefix_of_ne hd), replaceChars_cons _ hnot, ih]

end Words

/-! ## Spaced-out copies -/

theorem toList_spaceOut (text : String) :
    (spaceOut text).toList =
      replaceChars ['>'] ['>', ' '] (replaceChars ['<'] [' ', '<'] text.toList) := by
  rw [spaceOut, String.toList_ofList, replaceChars_replaceChars (by decide) (by decide)]

/-- The two replacements can be made in either order. -/
theorem replaceChars_swap (chars : List Char) :
    replaceChars ['>'] ['>', ' '] (replaceChars ['<'] [' ', '<'] chars) =
      replaceChars ['<'] [' ', '<'] (replaceChars ['>'] ['>', ' '] chars) := by
  rw [replaceChars_replaceChars (by decide) (by decide),
    replaceChars_replaceChars (by decide) (by decide)]
  congr 1
  funext c
  by_cases hopen : c = '<'
  · rw [hopen]
    rfl
  · rw [if_neg hopen, if_neg hopen]

theorem spaceOut_eq_replaceEach (text : String) :
    spaceOut text = replaceEach "<" " <" (replaceEach ">" "> " text) := by
  apply String.toList_injective
  simp only [replaceEach, String.toList_ofList]
  exact (toList_spaceOut text).trans (replaceChars_swap text.toList)

theorem replaceEach_spaceOut (text : String) :
    replaceEach " <" "<" (replaceEach "> " ">" (spaceOut text)) = text := by
  apply String.toList_injective
  simp only [replaceEach, String.toList_ofList, toList_spaceOut]
  calc
    replaceChars [' ', '<'] ['<'] (replaceChars ['>', ' '] ['>']
        (replaceChars ['>'] ['>', ' '] (replaceChars ['<'] [' ', '<'] text.toList))) =
      replaceChars [' ', '<'] ['<'] (replaceChars ['<'] [' ', '<'] text.toList) := by
        rw [replaceChars_pad_behind]
    _ = text.toList := replaceChars_pad_before (by decide) text.toList

theorem spaceOut_injective : Function.Injective spaceOut := by
  intro left right heq
  rw [← replaceEach_spaceOut left, heq, replaceEach_spaceOut]

theorem spaceOut_eq_self_iff {text : String} :
    spaceOut text = text ↔ ∀ c ∈ text.toList, isBracket c = false := by
  constructor
  · intro hsame
    have hlength := length_spaceOut text
    rw [hsame, Nat.left_eq_add, List.countP_eq_zero] at hlength
    intro c hmem
    exact Bool.eq_false_iff.mpr (hlength c hmem)
  · intro hplain
    have hchars : (text.toList.flatMap fun c =>
        if c = '>' then ['>', ' '] else if c = '<' then [' ', '<'] else [c]) =
          text.toList.flatMap fun c => [c] := by
      apply List.flatMap_congr
      intro c hmem
      have hbracket := hplain c hmem
      simp only [isBracket, Bool.or_eq_false_iff, decide_eq_false_iff_not] at hbracket
      rw [if_neg hbracket.2, if_neg hbracket.1]
    rw [spaceOut, hchars, List.flatMap_singleton', String.ofList_toList]

theorem spaceOut_ne_iff {text : String} :
    spaceOut text ≠ text ↔ '<' ∈ text.toList ∨ '>' ∈ text.toList := by
  rw [ne_eq, spaceOut_eq_self_iff]
  simp only [isBracket, Bool.or_eq_false_iff, decide_eq_false_iff_not]
  constructor
  · intro hnot
    by_contra hnone
    rw [not_or] at hnone
    apply hnot
    intro c hmem
    exact ⟨fun hopen => hnone.1 (hopen ▸ hmem), fun hclose => hnone.2 (hclose ▸ hmem)⟩
  · rintro (hopen | hclose) hplain
    · exact (hplain _ hopen).1 rfl
    · exact (hplain _ hclose).2 rfl

/-- Spacing out is the two replacements that it stands for.  It adds a character for each bracket,
it is undone by the two opposite replacements, and so it tells all texts apart.  It leaves alone
the texts without brackets and no others. -/
theorem spaceOut_is_reversible :
    (∀ text, spaceOut text = replaceEach "<" " <" (replaceEach ">" "> " text)) ∧
      (∀ text, (spaceOut text).length = text.length + text.toList.countP isBracket) ∧
      (∀ text, replaceEach " <" "<" (replaceEach "> " ">" (spaceOut text)) = text) ∧
      Function.Injective spaceOut ∧
      ∀ text, spaceOut text ≠ text ↔ '<' ∈ text.toList ∨ '>' ∈ text.toList := by
  refine ⟨spaceOut_eq_replaceEach, length_spaceOut, replaceEach_spaceOut, spaceOut_injective, ?_⟩
  intro text
  exact spaceOut_ne_iff

/-- Spaces that were there before stay. -/
example : spaceOut "a> <<b> " = "a>   < <b>  " ∧
    replaceEach " <" "<" (replaceEach "> " ">" "a>   < <b>  ") = "a> <<b> " := by
  decide +kernel

end MarkupSeeds
