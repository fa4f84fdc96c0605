import Mathlib.Data.Nat.Init
import MarkupSeeds.Proofs.Markup.Balance
import MarkupSeeds.Proofs.Markup.Occurrence

/-!
# Tags in a part of a text

A tag is recognised by its own bytes, and of the names of a shape only one fits.  What
occurs in a piece of a text therefore occurs in the piece on its own, at offsets that are
shifted by the length of what stands before it, and a balancing tag closes the same
element with or without the bytes behind it.
-/

namespace MarkupSeeds

section Parts

variable {P : Bytes → Prop} {front piece rest : Bytes} {pos start stop : Nat}

theorem occurs_append_left_iff :
    Occurs P (front ++ piece) (front.length + start) (front.length + stop) ↔
      Occurs P piece start stop := by
  rw [Occurs, Occurs, List.drop_length_add_append]
  simp only [Nat.add_assoc, Nat.add_left_cancel_iff]

theorem Occurs.append_right (hoccurs : Occurs P piece start stop) (rest : Bytes) :
    Occurs P (piece ++ rest) start stop := by
  obtain ⟨found, behind, hdrop, hstop, hfound⟩ := hoccurs
  refine ⟨found, behind ++ rest.drop (start - piece.length), ?_, hstop, hfound⟩
  rw [List.drop_append, hdrop, List.append_assoc]

theorem Occurs.of_append_right (hoccurs : Occurs P (piece ++ rest) start stop)
    (hstop : stop ≤ piece.length) : Occurs P piece start stop := by
  obtain ⟨found, behind, hdrop, rfl, hfound⟩ := hoccurs
  rw [List.drop_append_of_le_length (by omega)] at hdrop
  have hlength : found.length ≤ (piece.drop start).length := by
    rw [List.length_drop]
    omega
  obtain ⟨more, hmore⟩ := List.prefix_of_prefix_length_le ⟨behind, hdrop.symm⟩ ⟨rest, rfl⟩ hlength
  exact ⟨found, more, hmore.symm, rfl, hfound⟩

/-- What stands before and behind a piece has no part in what occurs in it. -/
theorem occurs_append_iff (hstop : stop ≤ piece.length) :
    Occurs P (front ++ (piece ++ rest)) (front.length + start) (front.length + stop) ↔
      Occurs P piece start stop := by
  rw [occurs_append_left_iff]
  constructor
  · intro hoccurs
    exact hoccurs.of_append_right hstop
  · intro hoccurs
    exact hoccurs.append_right rest

theorem FirstOccurs.of_append
    (hfirst : FirstOccurs P (front ++ (piece ++ rest)) (front.length + pos) (front.length + stop))
    (hstop : stop ≤ piece.length) : FirstOccurs P piece pos stop := by
  obtain ⟨first, hpos, hoccurs, hbefore⟩ := hfirst
  obtain ⟨start, rfl⟩ : ∃ start, first = front.length + start :=
    ⟨first - front.length, by omega⟩
  refine ⟨start, by omega, (occurs_append_iff hstop).mp hoccurs, ?_⟩
  intro other finish hother hlt hoccurs
  apply hbefore (front.length + other) (front.length + finish) (by omega) (by omega)
  exact occurs_append_left_iff.mpr (hoccurs.append_right rest)

end Parts

namespace Markup

/-! ## Only one name -/

theorem not_isBoundary_of_isLabelByte {b : UInt8} (hlabel : isLabelByte (lower b)) :
    ¬ isBoundary b := by
  intro hboundary
  simp only [isBoundary, isBlank, Bool.or_eq_true, beq_iff_eq] at hboundary
  rcases hboundary with (rfl | rfl) | ((((rfl | rfl) | rfl) | rfl) | rfl) <;>
    exact absurd hlabel (by decide)

/-- The name of an opening tag reaches up to the first boundary. -/
theorem IsOpening.exists_word {name tag : Bytes} (hopening : IsOpening name tag)
    (hlabel : IsLabel name) (rest : Bytes) :
    ∃ word, SameLetters word name ∧
      (tag ++ rest).tail.takeWhile (fun b => !isBoundary b) = word := by
  obtain ⟨word, attributes, rfl, hsame, -, hhead⟩ := hopening
  refine ⟨word, hsame, ?_⟩
  have hword : ∀ b ∈ word, (!isBoundary b) = true := by
    intro b hmem
    have hnot := not_isBoundary_of_isLabelByte (hsame.isLabelByte_lower hlabel b hmem)
    rw [Bool.not_eq_true', Bool.eq_false_iff]
    exact hnot
  have hstop : (attributes ++ gt :: rest).takeWhile (fun b => !isBoundary b) = [] := by
    cases attributes with
    | nil => rfl
    | cons b attributes =>
        have hboundary : isBoundary b = true := by
          rcases hhead b rfl with rfl | hblank
          · rfl
          · simp [isBoundary, hblank]
        rw [List.cons_append, List.takeWhile_cons_of_neg (by simp [hboundary])]
  have htail : (lt :: (word ++ (attributes ++ [gt])) ++ rest).tail =
      word ++ (attributes ++ gt :: rest) := by simp
  rw [htail, List.takeWhile_append_of_pos hword, hstop, List.append_nil]

theorem SameLetters.eq_of_isLabel {word name other : Bytes} (hname : SameLetters word name)
    (hother : SameLetters word other) (hlabel : IsLabel name) (hlabel' : IsLabel other) :
    name = other := by
  have hlower : ∀ {label : Bytes}, IsLabel label → label.map lower = label := by
    intro label hlabel
    calc
      label.map lower = label.map id :=
        List.map_congr_left fun b hmem => lower_of_isLabelByte (hlabel.2 b hmem)
      _ = label := List.map_id label
  rw [← hlower hlabel, ← hlower hlabel', ← hname, hother]

/-- Bytes do not begin with opening tags of two names. -/
theorem IsOpening.name_eq {name other tag otherTag rest otherRest : Bytes}
    (hopening : IsOpening name tag) (hother : IsOpening other otherTag) (hlabel : IsLabel name)
    (hlabel' : IsLabel other) (heq : tag ++ rest = otherTag ++ otherRest) : name = other := by
  obtain ⟨word, hsame, hword⟩ := hopening.exists_word hlabel rest
  obtain ⟨otherWord, hsame', hword'⟩ := hother.exists_word hlabel' otherRest
  rw [heq, hword'] at hword
  subst hword
  exact hsame.eq_of_isLabel hsame' hlabel hlabel'

/-- The recogniser of opening tags finds exactly the opening tags of the names. -/
theorem opening?_eq_some_iff {names : List Bytes} (hlabels : ∀ name ∈ names, IsLabel name)
    {tail : Bytes} {tag : Opening} :
    opening? names tail = some tag ↔
      tag.name ∈ names ∧ ∃ piece rest, lt :: tail = piece ++ rest ∧
        piece.length = 1 + tag.length ∧ IsOpening tag.name piece := by
  constructor
  · exact isOpening_of_opening?
  · intro hopening
    obtain ⟨hmem, piece, rest, htail, hlength, hpiece⟩ := hopening
    obtain ⟨found, hfound, hfoundLength⟩ :=
      exists_opening?_of_isOpening hlabels hmem htail hpiece
    obtain ⟨hmem', other, behind, htail', -, hother⟩ := isOpening_of_opening? hfound
    have hname : found.name = tag.name :=
      hother.name_eq hpiece (hlabels _ hmem') (hlabels _ hmem) (htail'.symm.trans htail)
    have hsame : found = tag := by
      cases found
      cases tag
      simp_all
    rw [hfound, hsame]

theorem openingAt?_eq_some_iff_occurs {names : List Bytes}
    (hlabels : ∀ name ∈ names, IsLabel name) {bytes : Bytes} {start : Nat} {tag : Opening} :
    openingAt? names bytes start = some tag ↔
      tag.name ∈ names ∧ Occurs (IsOpening tag.name) bytes start (start + 1 + tag.length) := by
  constructor
  · exact occurs_of_openingAt?
  · intro hopening
    obtain ⟨hmem, hoccurs⟩ := hopening
    obtain ⟨tail, hdrop⟩ :=
      (bracketed_isOpeningOf names).exists_tail (occurs_isOpeningOf_of_mem hmem hoccurs)
    obtain ⟨piece, rest, hpieces, hlength, hpiece⟩ := hoccurs
    refine openingAt?_eq_some_iff.mpr ⟨tail, hdrop, (opening?_eq_some_iff hlabels).mpr ?_⟩
    exact ⟨hmem, piece, rest, hdrop.symm.trans hpieces, by omega, hpiece⟩

/-- An opening tag is recognised in the piece that holds it. -/
theorem openingAt?_append_iff {names : List Bytes} (hlabels : ∀ name ∈ names, IsLabel name)
    {front piece rest : Bytes} {start : Nat} {tag : Opening}
    (hstop : start + 1 + tag.length ≤ piece.length) :
    openingAt? names (front ++ (piece ++ rest)) (front.length + start) = some tag ↔
      openingAt? names piece start = some tag := by
  rw [openingAt?_eq_some_iff_occurs hlabels, openingAt?_eq_some_iff_occurs hlabels, Nat.add_assoc,
    Nat.add_assoc front.length, occurs_append_iff (by omega), Nat.add_assoc]

/-! ## Balanced bytes -/

/-- Opening tags and closing tags do not begin at the same place. -/
theorem not_occurs_isOpening_of_isClosing {spaced : Bool} {name other bytes : Bytes}
    {start stop finish : Nat} (hlabel : IsLabel name)
    (hclosing : Occurs (IsClosing spaced other) bytes start stop) :
    ¬ Occurs (IsOpening name) bytes start finish := by
  intro hopening
  obtain ⟨tag, rest, hdrop, -, htag⟩ := hopening
  obtain ⟨closing, behind, hdrop', -, hpiece⟩ := hclosing
  exact htag.not_startsWith_closing hlabel rest ⟨closing, ⟨behind, hdrop'.symm.trans hdrop⟩, hpiece⟩

theorem StartsWith.exists_occurs {P : Bytes → Prop} {bytes piece rest : Bytes} {pos : Nat}
    (hdrop : bytes.drop pos = piece ++ rest) (hstarts : StartsWith P piece) :
    ∃ stop, Occurs P bytes pos stop := by
  obtain ⟨found, hprefix, hfound⟩ := hstarts.append rest
  obtain ⟨behind, hbehind⟩ := hprefix
  exact ⟨_, found, behind, hdrop.trans hbehind.symm, rfl, hfound⟩

/-- Balanced bytes can be extended to the left by a byte at which no tag begins. -/
theorem occurs_balances_of_succ {name bytes : Bytes} {depth pos stop : Nat}
    (hnotClosing : ∀ finish, ¬ Occurs (IsClosing true name) bytes pos finish)
    (hnotOpening : ∀ finish, ¬ Occurs (IsOpening name) bytes pos finish)
    (hoccurs : Occurs (Balances name depth) bytes (pos + 1) stop) :
    Occurs (Balances name depth) bytes pos stop := by
  obtain ⟨piece, rest, hdrop, hstop, hpiece⟩ := hoccurs
  have hlt : pos < bytes.length := by
    by_contra hbeyond
    rw [List.drop_eq_nil_of_le (by omega)] at hdrop
    have hempty := (List.append_eq_nil_iff.mp hdrop.symm).1
    exact List.ne_nil_of_mem hpiece.gt_mem hempty
  have hhead : bytes.drop pos = (bytes[pos] :: piece) ++ rest := by
    rw [List.drop_eq_getElem_cons hlt, hdrop, List.cons_append]
  refine ⟨bytes[pos] :: piece, rest, hhead, ?_, .skips ?_ ?_ hpiece⟩
  · rw [hstop, List.length_cons]
    omega
  · intro hstarts
    obtain ⟨finish, hfinish⟩ := hstarts.exists_occurs hhead
    exact hnotClosing finish hfinish
  · intro hstarts
    obtain ⟨finish, hfinish⟩ := hstarts.exists_occurs hhead
    exact hnotOpening finish hfinish

/-- Without a tag in between, the first closing tag balances. -/
theorem occurs_balances_of_first {name bytes : Bytes} {pos close stop : Nat} (hle : pos ≤ close)
    (hclosing : Occurs (IsClosing true name) bytes close stop)
    (hnone : ∀ p finish, pos ≤ p → p < close → ¬ Occurs (IsClosing true name) bytes p finish ∧
      ¬ Occurs (IsOpening name) bytes p finish) :
    Occurs (Balances name 1) bytes pos stop := by
  induction hle using Nat.decreasingInduction with
  | self => exact hclosing.mono fun _ hpiece => .last hpiece
  | of_succ pos hlt ih =>
      have hhere := fun finish => hnone pos finish (Nat.le_refl pos) hlt
      apply occurs_balances_of_succ (fun finish => (hhere finish).1)
        (fun finish => (hhere finish).2)
      exact ih fun p finish hp => hnone p finish (Nat.le_of_succ_le hp)

theorem exists_closing_of_occurs {name bytes : Bytes} {depth pos stop : Nat}
    (hoccurs : Occurs (Balances name depth) bytes pos stop) :
    ∃ close, pos ≤ close ∧ Occurs (IsClosing true name) bytes close stop := by
  obtain ⟨piece, rest, hdrop, rfl, hpiece⟩ := hoccurs
  obtain ⟨front, tag, rfl, htag⟩ := hpiece.exists_closing
  refine ⟨pos + front.length, Nat.le_add_right .., tag, rest, ?_, ?_, htag⟩
  · rw [← List.drop_drop, hdrop, List.append_assoc, List.drop_left]
  · rw [List.length_append, Nat.add_assoc]

/-- Balanced bytes are where the search for a balancing tag ends. -/
theorem balancedClose?_of_occurs {name bytes : Bytes} {pos stop : Nat} (hlabel : IsLabel name)
    (hoccurs : Occurs (Balances name 1) bytes pos stop) :
    balancedClose? name none 1 pos (bytes.drop pos) = some stop := by
  obtain ⟨piece, rest, hdrop, rfl, hpiece⟩ := hoccurs
  have hend := hpiece.balancedClose?_append hlabel (Nat.le_refl 1) 0 pos rest
  rw [hdrop, hend, if_pos rfl]

end Markup

end MarkupSeeds
