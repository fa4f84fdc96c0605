import MarkupSeeds.Proofs.Markup.Locality
import MarkupSeeds.Proofs.Text.Encoding

/-!
# The case of letters

Tags and balanced bytes are described by bytes that are no letters, and by names up to the
case of their letters.  What has one of these forms keeps it, at the same offsets, when the
case of letters changes.  In the encoding of a text, nothing but its ASCII letters takes
part in such a change.
-/

namespace MarkupSeeds

namespace Markup

/-! ## Bytes that differ in case -/

theorem eq_of_lower_eq {b c : UInt8} (hc : c < 0x41) (hlower : lower b = lower c) : b = c := by
  grind [lower]

theorem lower_lower (b : UInt8) : lower (lower b) = lower b := by
  grind [lower]

theorem sameLetters_map_lower (bytes : Bytes) : SameLetters bytes (bytes.map lower) := by
  rw [SameLetters, List.map_map]
  exact List.map_congr_left fun b _ => (lower_lower b).symm

theorem lt_of_isBlank {b : UInt8} (hblank : isBlank b) : b < 0x41 := by
  simp only [isBlank, Bool.or_eq_true, beq_iff_eq] at hblank
  rcases hblank with (((rfl | rfl) | rfl) | rfl) | rfl <;> decide

theorem SameLetters.symm {left right : Bytes} (hsame : SameLetters left right) :
    SameLetters right left := Eq.symm hsame

theorem SameLetters.drop {left right : Bytes} (hsame : SameLetters left right) (n : Nat) :
    SameLetters (left.drop n) (right.drop n) := by
  rw [SameLetters, List.map_drop, List.map_drop, hsame]

/-- Bytes that differ in case from two pieces fall into two pieces. -/
theorem SameLetters.exists_append {left right other : Bytes}
    (hsame : SameLetters (left ++ right) other) :
    ∃ left' right', other = left' ++ right' ∧ SameLetters left left' ∧
      SameLetters right right' := by
  rw [SameLetters, List.map_append] at hsame
  obtain ⟨left', right', hother, hleft, hright⟩ := List.map_eq_append_iff.mp hsame.symm
  exact ⟨left', right', hother, hleft.symm, hright.symm⟩

theorem SameLetters.exists_cons {b : UInt8} {rest other : Bytes}
    (hsame : SameLetters (b :: rest) other) :
    ∃ b' rest', other = b' :: rest' ∧ lower b = lower b' ∧ SameLetters rest rest' := by
  obtain ⟨b', rest', hother, hb, hrest⟩ := List.map_eq_cons_iff.mp hsame.symm
  exact ⟨b', rest', hother, hb.symm, hrest.symm⟩

/-- A byte below the letters is its own only spelling. -/
theorem SameLetters.exists_cons_fixed {b : UInt8} (hb : b < 0x41) {rest other : Bytes}
    (hsame : SameLetters (b :: rest) other) :
    ∃ rest', other = b :: rest' ∧ SameLetters rest rest' := by
  obtain ⟨b', rest', rfl, hlower, hrest⟩ := hsame.exists_cons
  rw [eq_of_lower_eq hb hlower.symm]
  exact ⟨rest', rfl, hrest⟩

theorem SameLetters.eq_of_fixed {left right : Bytes} (hsame : SameLetters left right)
    (hfixed : ∀ b ∈ left, b < 0x41) : right = left := by
  induction left generalizing right with
  | nil => exact List.map_eq_nil_iff.mp hsame.symm
  | cons b left ih =>
      obtain ⟨hb, hleft⟩ := List.forall_mem_cons.mp hfixed
      obtain ⟨right', rfl, hrest⟩ := hsame.exists_cons_fixed hb
      rw [ih hrest hleft]

theorem SameLetters.mem_of_mem {left right : Bytes} (hsame : SameLetters left right) {b : UInt8}
    (hb : b < 0x41) (hmem : b ∈ right) : b ∈ left := by
  have hlower : lower b ∈ left.map lower := hsame ▸ List.mem_map_of_mem hmem
  obtain ⟨c, hc, heq⟩ := List.mem_map.mp hlower
  exact eq_of_lower_eq hb heq ▸ hc

/-! ## Properties that ignore case -/

/-- Bytes that differ in case have the property or fail to have it alike. -/
def IgnoresCase (P : Bytes → Prop) : Prop :=
  ∀ left right, SameLetters left right → P left → P right

theorem ignoresCase_isOpening (name : Bytes) : IgnoresCase (IsOpening name) := by
  intro tag other hsame htag
  obtain ⟨word, attributes, rfl, hword, hfree, hhead⟩ := htag
  obtain ⟨body, rfl, hbody⟩ := hsame.exists_cons_fixed (by decide)
  obtain ⟨word', rest, rfl, hword', hrest⟩ := hbody.exists_append
  obtain ⟨attributes', end', rfl, hattributes, hend⟩ := hrest.exists_append
  rw [hend.eq_of_fixed (List.forall_mem_singleton.mpr (by decide))]
  refine ⟨word', attributes', rfl, hword'.symm.trans hword,
    fun hmem => hfree (hattributes.mem_of_mem (by decide) hmem), ?_⟩
  intro b hb
  cases attributes with
  | nil =>
      rw [hattributes.eq_of_fixed (by simp)] at hb
      cases hb
  | cons c attributes =>
      have hc := hhead c rfl
      have hfixed : c < 0x41 := hc.elim (fun hslash => hslash ▸ (by decide)) lt_of_isBlank
      obtain ⟨rest', rfl, -⟩ := hattributes.exists_cons_fixed hfixed
      rw [← Option.some.inj hb]
      exact hc

theorem ignoresCase_isClosing (spaced : Bool) (name : Bytes) :
    IgnoresCase (IsClosing spaced name) := by
  intro tag other hsame htag
  obtain ⟨word, blanks, rfl, hword, hblanks, hspaced⟩ := htag
  obtain ⟨behindLt, rfl, hslash⟩ := hsame.exists_cons_fixed (by decide)
  obtain ⟨body, rfl, hbody⟩ := hslash.exists_cons_fixed (by decide)
  obtain ⟨word', rest, rfl, hword', hrest⟩ := hbody.exists_append
  have hfixed : ∀ b ∈ blanks ++ [gt], b < 0x41 := by
    intro b hmem
    rcases List.mem_append.mp hmem with hblank | hgt
    · exact lt_of_isBlank (hblanks b hblank)
    · rw [List.mem_singleton.mp hgt]
      decide
  rw [hrest.eq_of_fixed hfixed]
  exact ⟨word', blanks, rfl, hword'.symm.trans hword, hblanks, hspaced⟩

theorem ignoresCase_isClosingOf (spaced : Bool) (names : List Bytes) :
    IgnoresCase (IsClosingOf spaced names) := by
  intro tag other hsame htag
  obtain ⟨name, hname, hclosing⟩ := htag
  exact ⟨name, hname, ignoresCase_isClosing spaced name tag other hsame hclosing⟩

theorem IgnoresCase.startsWith {P : Bytes → Prop} (hP : IgnoresCase P) :
    IgnoresCase (StartsWith P) := by
  intro bytes other hsame hstarts
  obtain ⟨piece, ⟨rest, rfl⟩, hpiece⟩ := hstarts
  obtain ⟨piece', rest', rfl, hpieces, -⟩ := hsame.exists_append
  exact ⟨piece', List.prefix_append piece' rest', hP piece piece' hpieces hpiece⟩

theorem ignoresCase_balances (name : Bytes) (depth : Nat) : IgnoresCase (Balances name depth) := by
  have hclosings := ignoresCase_isClosing true name
  have hopenings := ignoresCase_isOpening name
  intro bytes other hsame hbalances
  induction hbalances generalizing other with
  | last hclosing => exact .last (hclosings _ _ hsame hclosing)
  | closes hclosing hrest ih =>
      obtain ⟨tag', rest', rfl, htag, hbehind⟩ := hsame.exists_append
      exact .closes (hclosings _ _ htag hclosing) (ih rest' hbehind)
  | opens hnotClosing hopening hrest ih =>
      obtain ⟨tag', rest', rfl, htag, hbehind⟩ := hsame.exists_append
      refine .opens (fun hstarts => hnotClosing ?_) (hopenings _ _ htag hopening) (ih rest' hbehind)
      exact hclosings.startsWith _ _ hsame.symm hstarts
  | skips hnotClosing hnotOpening hrest ih =>
      obtain ⟨b', rest', rfl, -, hbehind⟩ := hsame.exists_cons
      refine .skips (fun hstarts => hnotClosing ?_) (fun hstarts => hnotOpening ?_)
        (ih rest' hbehind)
      · exact hclosings.startsWith _ _ hsame.symm hstarts
      · exact hopenings.startsWith _ _ hsame.symm hstarts

/-! ## At offsets -/

section Offsets

variable {P : Bytes → Prop} {bytes other : Bytes} {pos start stop : Nat}

theorem IgnoresCase.occurs (hP : IgnoresCase P) (hsame : SameLetters bytes other)
    (hoccurs : Occurs P bytes start stop) : Occurs P other start stop := by
  obtain ⟨piece, rest, hdrop, rfl, hpiece⟩ := hoccurs
  obtain ⟨piece', rest', hdrop', hpieces, -⟩ := (hdrop ▸ hsame.drop start).exists_append
  exact ⟨piece', rest', hdrop', by rw [hpieces.length_eq], hP piece piece' hpieces hpiece⟩

theorem IgnoresCase.firstOccurs (hP : IgnoresCase P) (hsame : SameLetters bytes other)
    (hfirst : FirstOccurs P bytes pos stop) : FirstOccurs P other pos stop := by
  obtain ⟨start, hpos, hoccurs, hleast⟩ := hfirst
  refine ⟨start, hpos, hP.occurs hsame hoccurs, ?_⟩
  intro first finish hfirst hlt hearlier
  exact hleast first finish hfirst hlt (hP.occurs hsame.symm hearlier)

theorem openingAt?_eq_of_sameLetters {names : List Bytes} (hlabels : ∀ name ∈ names, IsLabel name)
    (hsame : SameLetters bytes other) (start : Nat) :
    openingAt? names bytes start = openingAt? names other start := by
  apply Option.ext
  intro tag
  rw [openingAt?_eq_some_iff_occurs hlabels, openingAt?_eq_some_iff_occurs hlabels]
  have hopenings := ignoresCase_isOpening tag.name
  constructor
  · intro hopening
    exact ⟨hopening.1, hopenings.occurs hsame hopening.2⟩
  · intro hopening
    exact ⟨hopening.1, hopenings.occurs hsame.symm hopening.2⟩

end Offsets

end Markup

/-! ## Texts -/

theorem toList_toLower (text : String) : text.toLower.toList = text.toList.map Char.toLower :=
  String.toList_map

theorem length_toLower (text : String) : text.toLower.length = text.length := String.length_map

theorem toLower_append (left right : String) :
    (left ++ right).toLower = left.toLower ++ right.toLower := by
  rw [← String.toList_inj]
  simp only [toList_toLower, String.toList_append, List.map_append]

namespace Utf8

open Markup

theorem utf8EncodeChar_toLower (c : Char) :
    String.utf8EncodeChar c.toLower = (String.utf8EncodeChar c).map lower := by
  by_cases hascii : c.toNat < 128
  · have hall : ∀ n < 128, String.utf8EncodeChar (Char.ofNat n).toLower =
        (String.utf8EncodeChar (Char.ofNat n)).map lower := by decide +kernel
    have hc := hall c.toNat hascii
    rwa [Char.ofNat_toNat] at hc
  · have hnot : ¬(c.val ≥ 'A'.val ∧ c.val ≤ 'Z'.val) := by
      intro hletter
      have hsmall : c.toNat ≤ 90 := UInt32.le_iff_toNat_le.mp hletter.2
      omega
    have hsame : c.toLower = c := dif_neg hnot
    have hfixed : ∀ b ∈ String.utf8EncodeChar c, lower b = id b := by
      intro b hmem
      have hbyte := le_of_mem_utf8EncodeChar (Nat.not_lt.mp hascii) hmem
      grind [lower]
    rw [hsame, List.map_congr_left hfixed, List.map_id]

theorem encode_toLower (text : String) :
    encode text.toLower = (encode text).map lower := by
  rw [encode, encode, toList_toLower, encodeChars, encodeChars, List.flatMap_map,
    List.map_flatMap]
  exact congrArg (List.flatMap · text.toList) (funext utf8EncodeChar_toLower)

end Utf8

end MarkupSeeds
