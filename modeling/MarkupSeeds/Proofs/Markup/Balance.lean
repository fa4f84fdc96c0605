import MarkupSeeds.Markup.Closing
import MarkupSeeds.Proofs.Markup.TagForm

/-!
# Balanced bytes

What the balanced search walks over, seen as bytes on their own.  `Balances` reads
them tag by tag and keeps count of the open elements, so that nothing behind the
end that was found takes part.  A limit on the search does no more than to refuse
the ends beyond it.
-/

namespace MarkupSeeds.Markup

/-- A piece with the property `P` stands at the head of the bytes. -/
def StartsWith (P : Bytes → Prop) (bytes : Bytes) : Prop := ∃ piece, piece <+: bytes ∧ P piece

theorem StartsWith.append {P : Bytes → Prop} {bytes : Bytes} (hstarts : StartsWith P bytes)
    (rest : Bytes) : StartsWith P (bytes ++ rest) := by
  obtain ⟨piece, hprefix, hpiece⟩ := hstarts
  exact ⟨piece, hprefix.trans (List.prefix_append bytes rest), hpiece⟩

/-- With `depth` elements of the name open, the bytes close the last of them with their
very last tag, and not before. -/
inductive Balances (name : Bytes) : Nat → Bytes → Prop
  | last {tag} (hclosing : IsClosing true name tag) : Balances name 1 tag
  | closes {depth tag rest} (hclosing : IsClosing true name tag)
      (hrest : Balances name (depth + 1) rest) : Balances name (depth + 2) (tag ++ rest)
  | opens {depth tag rest} (hnotClosing : ¬ StartsWith (IsClosing true name) (tag ++ rest))
      (hopening : IsOpening name tag) (hrest : Balances name (depth + 1) rest) :
      Balances name depth (tag ++ rest)
  | skips {depth b rest} (hnotClosing : ¬ StartsWith (IsClosing true name) (b :: rest))
      (hnotOpening : ¬ StartsWith (IsOpening name) (b :: rest))
      (hrest : Balances name depth rest) : Balances name depth (b :: rest)

/-- Balanced bytes end with a closing tag. -/
theorem Balances.exists_closing {name bytes : Bytes} {depth : Nat}
    (hbalances : Balances name depth bytes) :
    ∃ front tag, bytes = front ++ tag ∧ IsClosing true name tag := by
  induction hbalances with
  | last hclosing => exact ⟨[], _, rfl, hclosing⟩
  | @closes _ tag _ _ _ ih =>
      obtain ⟨front, last, rfl, hlast⟩ := ih
      exact ⟨tag ++ front, last, (List.append_assoc ..).symm, hlast⟩
  | @opens _ tag _ _ _ _ ih =>
      obtain ⟨front, last, rfl, hlast⟩ := ih
      exact ⟨tag ++ front, last, (List.append_assoc ..).symm, hlast⟩
  | @skips _ b _ _ _ _ ih =>
      obtain ⟨front, last, rfl, hlast⟩ := ih
      exact ⟨b :: front, last, rfl, hlast⟩

/-! ## Heads of the bytes that are left -/

theorem closing?_eq_none_iff {name tail : Bytes} :
    closing? true name tail = none ↔ ¬ StartsWith (IsClosing true name) (lt :: tail) := by
  rw [Option.eq_none_iff_forall_ne_some]
  constructor
  · intro hnone hstarts
    obtain ⟨piece, ⟨rest, hrest⟩, hpiece⟩ := hstarts
    exact hnone _ (closing?_of_isClosing hrest.symm hpiece)
  · intro hnot n hn
    obtain ⟨piece, rest, htail, -, hpiece⟩ := closing?_eq_some_iff.mp hn
    exact hnot ⟨piece, ⟨rest, htail.symm⟩, hpiece⟩

theorem opening?_eq_none_iff {name tail : Bytes} (hlabel : IsLabel name) :
    opening? [name] tail = none ↔ ¬ StartsWith (IsOpening name) (lt :: tail) := by
  rw [Option.eq_none_iff_forall_ne_some]
  constructor
  · intro hnone hstarts
    obtain ⟨piece, ⟨rest, hrest⟩, hpiece⟩ := hstarts
    obtain ⟨tag, htag, -⟩ := exists_opening?_of_isOpening (List.forall_mem_singleton.mpr hlabel)
      (List.mem_singleton.mpr rfl) hrest.symm hpiece
    exact hnone tag htag
  · intro hnot tag htag
    obtain ⟨hname, piece, rest, htail, -, hpiece⟩ := isOpening_of_opening? htag
    rw [List.mem_singleton.mp hname] at hpiece
    exact hnot ⟨piece, ⟨rest, htail.symm⟩, hpiece⟩

theorem not_startsWith_of_head {name rest : Bytes} {b : UInt8} (hb : b ≠ lt) :
    ¬ StartsWith (IsClosing true name) (b :: rest) ∧ ¬ StartsWith (IsOpening name) (b :: rest) := by
  constructor
  · intro hstarts
    obtain ⟨_, ⟨behind, hbehind⟩, word, blanks, rfl, -⟩ := hstarts
    exact hb (List.cons.inj hbehind).1.symm
  · intro hstarts
    obtain ⟨_, ⟨behind, hbehind⟩, word, attributes, rfl, -⟩ := hstarts
    exact hb (List.cons.inj hbehind).1.symm

/-! ## The search -/

/-- A tag at the head is put before the piece that was found behind it. -/
theorem tag_append_piece {tail tag after piece behind : Bytes} {n pos stop : Nat}
    (hhead : lt :: tail = tag ++ after) (hlength : tag.length = 1 + n)
    (hdrop : tail.drop n = piece ++ behind) (hend : stop = pos + 1 + n + piece.length) :
    lt :: tail = tag ++ piece ++ behind ∧ stop = pos + (tag ++ piece).length := by
  have hafter : after = piece ++ behind := by
    calc
      after = (lt :: tail).drop (1 + n) := by rw [hhead, ← hlength, List.drop_left]
      _ = tail.drop n := by rw [Nat.add_comm, List.drop_succ_cons]
      _ = piece ++ behind := hdrop
  constructor
  · rw [hhead, hafter, List.append_assoc]
  · rw [hend, List.length_append, hlength, Nat.add_assoc pos, Nat.add_assoc pos]

/-- The end that the search finds is the end of balanced bytes. -/
theorem exists_balances_of_balancedClose? {name rest : Bytes} {limit : Option Nat}
    {depth pos stop : Nat} (hlabel : IsLabel name) (hdepth : 1 ≤ depth)
    (hstop : balancedClose? name limit depth pos rest = some stop) :
    ∃ piece behind, rest = piece ++ behind ∧ stop = pos + piece.length ∧
      Balances name depth piece := by
  fun_induction balancedClose? name limit depth pos rest with
  | case1 => cases hstop
  | case2 => cases hstop
  | case3 depth pos tail hlimit n hn hlast =>
      have hone : depth = 1 := Nat.le_antisymm hlast hdepth
      obtain ⟨hsome, -⟩ := Option.filter_eq_some_iff.mp hstop
      cases hsome
      obtain ⟨tag, behind, hhead, hlength, htag⟩ := closing?_eq_some_iff.mp hn
      exact ⟨tag, behind, hhead, by omega, hone ▸ .last htag⟩
  | case4 depth pos tail hlimit n hn hinner ih =>
      obtain ⟨piece, behind, hdrop, hend, hpiece⟩ := ih (by omega) hstop
      obtain ⟨tag, after, hhead, hlength, htag⟩ := closing?_eq_some_iff.mp hn
      have hwhole := tag_append_piece hhead hlength hdrop hend
      obtain ⟨outer, rfl⟩ : ∃ outer, depth = outer + 2 := ⟨depth - 2, by omega⟩
      exact ⟨tag ++ piece, behind, hwhole.1, hwhole.2, .closes htag hpiece⟩
  | case5 depth pos tail hlimit hn opening hopening ih =>
      obtain ⟨piece, behind, hdrop, hend, hpiece⟩ := ih (by omega) hstop
      obtain ⟨hname, tag, after, hhead, hlength, htag⟩ := isOpening_of_opening? hopening
      rw [List.mem_singleton.mp hname] at htag
      have hwhole := tag_append_piece hhead hlength hdrop hend
      have hnotClosing : ¬ StartsWith (IsClosing true name) (tag ++ piece) := by
        intro hstarts
        exact closing?_eq_none_iff.mp hn (hwhole.1 ▸ hstarts.append behind)
      exact ⟨tag ++ piece, behind, hwhole.1, hwhole.2, .opens hnotClosing htag hpiece⟩
  | case6 depth pos tail hlimit hn hopening ih =>
      obtain ⟨piece, behind, rfl, hend, hpiece⟩ := ih hdepth hstop
      refine ⟨lt :: piece, behind, rfl, ?_, .skips ?_ ?_ hpiece⟩
      · rw [hend, List.length_cons]
        omega
      · intro hstarts
        exact closing?_eq_none_iff.mp hn (hstarts.append behind)
      · intro hstarts
        exact (opening?_eq_none_iff hlabel).mp hopening (hstarts.append behind)
  | case7 depth pos b tail hb ih =>
      obtain ⟨piece, behind, rfl, hend, hpiece⟩ := ih hdepth hstop
      have hneither : ¬ StartsWith (IsClosing true name) (b :: piece) ∧
          ¬ StartsWith (IsOpening name) (b :: piece) := not_startsWith_of_head hb
      refine ⟨b :: piece, behind, rfl, ?_, .skips hneither.1 hneither.2 hpiece⟩
      rw [hend, List.length_cons]
      omega

/-! ## From balanced bytes to the search -/

/-- Pieces that end at their first `>`, as tags of a name do. -/
def EndsAtGt (P : Bytes → Prop) : Prop :=
  ∀ piece rest, P piece → throughGt? (piece ++ rest) = some piece.length

theorem endsAtGt_isOpening {name : Bytes} (hlabel : IsLabel name) : EndsAtGt (IsOpening name) :=
  fun _ rest hpiece => hpiece.throughGt?_append hlabel rest

theorem endsAtGt_isClosing {spaced : Bool} {name : Bytes} (hlabel : IsLabel name) :
    EndsAtGt (IsClosing spaced name) :=
  fun _ rest hpiece => hpiece.throughGt?_append hlabel rest

/-- What stands behind a `>` does not complete a tag that begins before it. -/
theorem StartsWith.of_append {P : Bytes → Prop} (hP : EndsAtGt P) {bytes rest : Bytes}
    (hgt : gt ∈ bytes) (hstarts : StartsWith P (bytes ++ rest)) : StartsWith P bytes := by
  obtain ⟨piece, ⟨behind, hbehind⟩, hpiece⟩ := hstarts
  obtain ⟨i, hi, heq⟩ := List.getElem_of_mem hgt
  have hat : (bytes ++ rest)[i]? = some gt := by
    rw [List.getElem?_append_left hi, List.getElem?_eq_getElem hi, heq]
  have hthrough : throughGt? (bytes ++ rest) = some piece.length :=
    hbehind ▸ hP piece behind hpiece
  have hle := throughGt?_le_of_getElem? hthrough hat
  have hshort : piece.length ≤ bytes.length := by omega
  exact ⟨piece, List.prefix_of_prefix_length_le ⟨behind, hbehind⟩ ⟨rest, rfl⟩ hshort, hpiece⟩

theorem Balances.gt_mem {name bytes : Bytes} {depth : Nat} (hbalances : Balances name depth bytes) :
    gt ∈ bytes := by
  obtain ⟨front, tag, rfl, word, blanks, rfl, -⟩ := hbalances.exists_closing
  simp

/-- An opening tag has a letter or a digit where a closing tag has its slash. -/
theorem IsOpening.not_startsWith_closing {spaced : Bool} {name other tag : Bytes}
    (hopening : IsOpening name tag) (hlabel : IsLabel name) (rest : Bytes) :
    ¬ StartsWith (IsClosing spaced other) (tag ++ rest) := by
  intro hstarts
  obtain ⟨word, attributes, rfl, hsame, -⟩ := hopening
  obtain ⟨_, ⟨behind, hbehind⟩, spelled, blanks, rfl, -⟩ := hstarts
  cases word with
  | nil => exact hlabel.1 (List.length_eq_zero_iff.mp hsame.length_eq.symm)
  | cons b word =>
      have hslash : slash = b := (List.cons.inj (List.cons.inj hbehind).2).1
      have hbyte := hsame.isLabelByte_lower hlabel b List.mem_cons_self
      rw [← hslash] at hbyte
      exact absurd hbyte (by decide)

section Steps

variable {name tag rest : Bytes} {b : UInt8} {depth pos : Nat}

theorem balancedClose?_closing (hclosing : IsClosing true name tag) :
    balancedClose? name none depth pos (tag ++ rest) =
      if depth ≤ 1 then some (pos + tag.length)
      else balancedClose? name none (depth - 1) (pos + tag.length) rest := by
  obtain ⟨tail, rfl⟩ : ∃ tail, tag = lt :: tail := by
    obtain ⟨word, blanks, rfl, -⟩ := hclosing
    exact ⟨_, rfl⟩
  have hhead : lt :: (tail ++ rest) = (lt :: tail) ++ rest := rfl
  have hn : closing? true name (tail ++ rest) = some tail.length :=
    closing?_of_isClosing hhead hclosing
  have hend : pos + 1 + tail.length = pos + (lt :: tail).length := by
    rw [List.length_cons, Nat.add_assoc, Nat.add_comm 1]
  rw [List.cons_append, balancedClose?, if_pos rfl, hn]
  simp only [hend, List.drop_left, Option.any_none, Option.all_none, Bool.false_eq_true, if_false]
  rfl

theorem balancedClose?_opening (hlabel : IsLabel name) (hopening : IsOpening name tag) :
    balancedClose? name none depth pos (tag ++ rest) =
      balancedClose? name none (depth + 1) (pos + tag.length) rest := by
  have hnotClosing : ¬ StartsWith (IsClosing true name) (tag ++ rest) :=
    hopening.not_startsWith_closing hlabel rest
  obtain ⟨tail, rfl⟩ : ∃ tail, tag = lt :: tail := by
    obtain ⟨word, attributes, rfl, -⟩ := hopening
    exact ⟨_, rfl⟩
  have hhead : lt :: (tail ++ rest) = (lt :: tail) ++ rest := rfl
  have hn : closing? true name (tail ++ rest) = none := closing?_eq_none_iff.mpr hnotClosing
  obtain ⟨found, hfound, hlength⟩ :=
    exists_opening?_of_isOpening (List.forall_mem_singleton.mpr hlabel)
      (List.mem_singleton.mpr rfl) hhead hopening
  have htail : found.length = tail.length := by
    rw [List.length_cons] at hlength
    omega
  have hend : pos + 1 + tail.length = pos + (lt :: tail).length := by
    rw [List.length_cons, Nat.add_assoc, Nat.add_comm 1]
  rw [List.cons_append, balancedClose?, if_pos rfl, hn]
  simp only [hfound, htail, hend, List.drop_left, Option.any_none, Bool.false_eq_true, if_false]

theorem balancedClose?_skip (hlabel : IsLabel name)
    (hnotClosing : ¬ StartsWith (IsClosing true name) (b :: rest))
    (hnotOpening : ¬ StartsWith (IsOpening name) (b :: rest)) :
    balancedClose? name none depth pos (b :: rest) =
      balancedClose? name none depth (pos + 1) rest := by
  rw [balancedClose?]
  split
  · rename_i hb
    subst hb
    have hn := closing?_eq_none_iff.mpr hnotClosing
    have hopening := (opening?_eq_none_iff hlabel).mpr hnotOpening
    simp only [hn, hopening, Option.any_none, Bool.false_eq_true, if_false]
  · rfl

end Steps

/-- On balanced bytes the search goes to their end, whatever stands behind them.  It is
over there unless more elements are open than the bytes close. -/
theorem Balances.balancedClose?_append {name bytes : Bytes} {depth : Nat} (hlabel : IsLabel name)
    (hbalances : Balances name depth bytes) (hdepth : 1 ≤ depth) (outer pos : Nat) (rest : Bytes) :
    balancedClose? name none (depth + outer) pos (bytes ++ rest) =
      if outer = 0 then some (pos + bytes.length)
      else balancedClose? name none outer (pos + bytes.length) rest := by
  induction hbalances generalizing pos with
  | @last tag hclosing =>
      have hlast : 1 + outer ≤ 1 ↔ outer = 0 := by omega
      rw [balancedClose?_closing hclosing, Nat.add_sub_cancel_left]
      simp only [hlast]
  | @closes depth tag bytes hclosing hrest ih =>
      rw [List.append_assoc, balancedClose?_closing hclosing, if_neg (by omega)]
      have hinner : depth + 2 + outer - 1 = depth + 1 + outer := by omega
      rw [hinner, ih (by omega), List.length_append, Nat.add_assoc]
  | @opens depth tag bytes hnotClosing hopening hrest ih =>
      have hinner : depth + outer + 1 = depth + 1 + outer := by omega
      rw [List.append_assoc, balancedClose?_opening hlabel hopening, hinner, ih (by omega),
        List.length_append, Nat.add_assoc]
  | @skips depth b bytes hnotClosing hnotOpening hrest ih =>
      have hgt : gt ∈ b :: bytes := List.mem_cons_of_mem b hrest.gt_mem
      have hnotClosing' : ¬ StartsWith (IsClosing true name) (b :: (bytes ++ rest)) :=
        fun hstarts => hnotClosing (StartsWith.of_append (endsAtGt_isClosing hlabel) hgt hstarts)
      have hnotOpening' : ¬ StartsWith (IsOpening name) (b :: (bytes ++ rest)) :=
        fun hstarts => hnotOpening (StartsWith.of_append (endsAtGt_isOpening hlabel) hgt hstarts)
      rw [List.cons_append, balancedClose?_skip hlabel hnotClosing' hnotOpening', ih hdepth,
        List.length_cons, Nat.add_assoc, Nat.add_comm 1]

theorem lt_of_balancedClose? {name rest : Bytes} {limit : Option Nat} {depth pos stop : Nat}
    (hstop : balancedClose? name limit depth pos rest = some stop) : pos < stop := by
  fun_induction balancedClose? name limit depth pos rest with
  | case1 => cases hstop
  | case2 => cases hstop
  | case3 depth pos tail hlimit n hn hlast =>
      obtain ⟨hsome, -⟩ := Option.filter_eq_some_iff.mp hstop
      cases hsome
      omega
  | case4 depth pos tail hlimit n hn hinner ih => exact Nat.lt_trans (by omega) (ih hstop)
  | case5 depth pos tail hlimit hn opening hopening ih =>
      exact Nat.lt_trans (by omega) (ih hstop)
  | case6 depth pos tail hlimit hn hopening ih => exact Nat.lt_of_succ_lt (ih hstop)
  | case7 depth pos b tail hb ih => exact Nat.lt_of_succ_lt (ih hstop)

/-- At a `<` at or beyond the limit the search gives up, while every end is further on. -/
theorem limited_iff {limited inner found : Option Nat} {limit stop : Nat} (pos : Nat)
    (hlimited : limited = if limit ≤ pos then none else inner)
    (hinner : inner = some stop ↔ found = some stop ∧ stop ≤ limit)
    (hfound : found = some stop → pos < stop) :
    limited = some stop ↔ found = some stop ∧ stop ≤ limit := by
  by_cases hbeyond : limit ≤ pos
  · rw [hlimited, if_pos hbeyond]
    simp only [reduceCtorEq, false_iff, not_and, Nat.not_le]
    intro hstop
    exact Nat.lt_of_le_of_lt hbeyond (hfound hstop)
  · rw [hlimited, if_neg hbeyond, hinner]

/-- A limit refuses the ends beyond it and changes nothing else. -/
theorem balancedClose?_some_limit_iff {name rest : Bytes} {limit depth pos stop : Nat} :
    balancedClose? name (some limit) depth pos rest = some stop ↔
      balancedClose? name none depth pos rest = some stop ∧ stop ≤ limit := by
  fun_induction balancedClose? name none depth pos rest with
  | case1 => simp [balancedClose?]
  | case2 depth pos tail hlimit => cases hlimit
  | case3 depth pos tail hlimit n hn hlast =>
      apply limited_iff pos
      · rw [balancedClose?, if_pos rfl]
        simp only [hn, hlast, Option.any_some, decide_eq_true_eq, if_true]
        rfl
      · simp
      · simp
        omega
  | case4 depth pos tail hlimit n hn hinner ih =>
      refine limited_iff pos ?_ ih fun hstop => ?_
      · rw [balancedClose?, if_pos rfl]
        simp only [hn, hinner, Option.any_some, decide_eq_true_eq, if_false]
      · exact Nat.lt_trans (by omega) (lt_of_balancedClose? hstop)
  | case5 depth pos tail hlimit hn opening hopening ih =>
      refine limited_iff pos ?_ ih fun hstop => ?_
      · rw [balancedClose?, if_pos rfl]
        simp only [hn, hopening, Option.any_some, decide_eq_true_eq]
      · exact Nat.lt_trans (by omega) (lt_of_balancedClose? hstop)
  | case6 depth pos tail hlimit hn hopening ih =>
      refine limited_iff pos ?_ ih fun hstop => ?_
      · rw [balancedClose?, if_pos rfl]
        simp only [hn, hopening, Option.any_some, decide_eq_true_eq]
      · exact Nat.lt_of_succ_lt (lt_of_balancedClose? hstop)
  | case7 depth pos b tail hb ih =>
      rw [balancedClose?, if_neg hb]
      exact ih

end MarkupSeeds.Markup
