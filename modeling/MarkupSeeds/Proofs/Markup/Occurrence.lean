import MarkupSeeds.Markup.Closing
import MarkupSeeds.Proofs.Markup.TagForm
import Mathlib.Data.Nat.Find

/-!
# Tags at offsets

The searches carry the bytes that are left and the offset that these begin at.
Here a text stays whole and its tags are named by the offsets that they take up.
The nearest rule is then the first closing tag at or after an offset.
-/

namespace MarkupSeeds

/-- A piece with the property `P` takes up the offsets of `bytes` from `start` up to
but not including `stop`. -/
def Occurs (P : Bytes → Prop) (bytes : Bytes) (start stop : Nat) : Prop :=
  ∃ piece rest, bytes.drop start = piece ++ rest ∧ stop = start + piece.length ∧ P piece

/-- Of the pieces with the property `P` that begin at or after `pos`, the first one
ends at `stop`. -/
def FirstOccurs (P : Bytes → Prop) (bytes : Bytes) (pos stop : Nat) : Prop :=
  ∃ start, pos ≤ start ∧ Occurs P bytes start stop ∧
    ∀ other finish, pos ≤ other → other < start → ¬ Occurs P bytes other finish

section First

variable {P : Bytes → Prop} {bytes : Bytes} {pos start stop : Nat}

/-- Of the pieces with the property `P` that begin at or after `pos`, the first one takes up
the offsets from `start` up to `stop`. -/
structure IsFirst (P : Bytes → Prop) (bytes : Bytes) (pos start stop : Nat) : Prop where
  le : pos ≤ start
  occurs : Occurs P bytes start stop
  least : ∀ other finish, pos ≤ other → other < start → ¬ Occurs P bytes other finish

theorem firstOccurs_iff_exists_isFirst :
    FirstOccurs P bytes pos stop ↔ ∃ start, IsFirst P bytes pos start stop := by
  constructor
  · intro hfirst
    obtain ⟨start, hpos, hoccurs, hleast⟩ := hfirst
    exact ⟨start, hpos, hoccurs, hleast⟩
  · intro hfirst
    obtain ⟨start, hpos, hoccurs, hleast⟩ := hfirst
    exact ⟨start, hpos, hoccurs, hleast⟩

theorem Occurs.exists_isFirst (hoccurs : Occurs P bytes start stop) (hpos : pos ≤ start) :
    ∃ first finish, IsFirst P bytes pos first finish := by
  classical
  have hsome : ∃ first, pos ≤ first ∧ ∃ finish, Occurs P bytes first finish :=
    ⟨start, hpos, stop, hoccurs⟩
  obtain ⟨hle, finish, hfinish⟩ := Nat.find_spec hsome
  refine ⟨Nat.find hsome, finish, hle, hfinish, ?_⟩
  intro other finish hother hlt hoccurs
  exact Nat.find_min hsome hlt ⟨hother, finish, hoccurs⟩

/-- No further `<` stands in a piece that has only one. -/
theorem Occurs.getElem?_ne_lt (hP : ∀ piece, P piece → lt ∉ piece.tail)
    (hoccurs : Occurs P bytes start stop) {p : Nat} (hstart : start < p) (hstop : p < stop) :
    bytes[p]? ≠ some lt := by
  intro hlt
  obtain ⟨piece, rest, hdrop, rfl, hpiece⟩ := hoccurs
  have hindex : start + (p - start - 1 + 1) = p := by omega
  have htail : piece.tail[p - start - 1]? = some lt := by
    rw [List.getElem?_tail, ← List.getElem?_append_left (by omega), ← hdrop, List.getElem?_drop,
      hindex]
    exact hlt
  exact hP piece hpiece (List.mem_of_getElem? htail)

end First

theorem Occurs.mono {P Q : Bytes → Prop} (himp : ∀ piece, P piece → Q piece) {bytes : Bytes}
    {start stop : Nat} (hoccurs : Occurs P bytes start stop) : Occurs Q bytes start stop := by
  obtain ⟨piece, rest, hdrop, hstop, hpiece⟩ := hoccurs
  exact ⟨piece, rest, hdrop, hstop, himp piece hpiece⟩

/-- The last byte of a piece, if all pieces end with the same one. -/
theorem Occurs.getElem?_last {P : Bytes → Prop} {b : UInt8}
    (hlast : ∀ piece, P piece → piece.getLast? = some b) {bytes : Bytes} {start stop : Nat}
    (hoccurs : Occurs P bytes start stop) : bytes[stop - 1]? = some b := by
  obtain ⟨piece, rest, hdrop, rfl, hpiece⟩ := hoccurs
  obtain ⟨initial, rfl⟩ := List.getLast?_eq_some_iff.mp (hlast piece hpiece)
  have hindex : start + (initial ++ [b]).length - 1 = start + initial.length := by
    rw [List.length_append, List.length_singleton, ← Nat.add_assoc, Nat.add_sub_cancel]
  rw [hindex, ← List.getElem?_drop, hdrop, List.append_assoc,
    List.getElem?_append_right (Nat.le_refl _), Nat.sub_self]
  rfl

theorem Occurs.take_drop {P : Bytes → Prop} {bytes : Bytes} {start stop : Nat}
    (hoccurs : Occurs P bytes start stop) : P ((bytes.drop start).take (stop - start)) := by
  obtain ⟨piece, rest, hdrop, rfl, hpiece⟩ := hoccurs
  rw [hdrop, Nat.add_sub_cancel_left, List.take_left]
  exact hpiece

/-- Pieces that follow each other make up a larger piece. -/
theorem Occurs.append {P Q R : Bytes → Prop}
    (himp : ∀ left right, P left → Q right → R (left ++ right)) {bytes : Bytes}
    {start middle stop : Nat} (hleft : Occurs P bytes start middle)
    (hright : Occurs Q bytes middle stop) : Occurs R bytes start stop := by
  obtain ⟨left, afterLeft, hdropLeft, rfl, hP⟩ := hleft
  obtain ⟨right, afterRight, hdropRight, rfl, hQ⟩ := hright
  have hafter : afterLeft = right ++ afterRight := by
    rw [← hdropRight, ← List.drop_drop, hdropLeft, List.drop_left]
  refine ⟨left ++ right, afterRight, ?_, ?_, himp left right hP hQ⟩
  · rw [hdropLeft, hafter, List.append_assoc]
  · rw [List.length_append, Nat.add_assoc]

theorem drop_succ_of_drop_eq_cons {bytes tail : Bytes} {b : UInt8} {pos : Nat}
    (hdrop : bytes.drop pos = b :: tail) (n : Nat) :
    bytes.drop (pos + 1 + n) = tail.drop n := by
  rw [Nat.add_assoc, ← List.drop_drop, hdrop, Nat.add_comm, List.drop_succ_cons]

theorem drop_add_of_drop_eq_append {bytes left right : Bytes} {pos : Nat}
    (hdrop : bytes.drop pos = left ++ right) : bytes.drop (pos + left.length) = right := by
  rw [← List.drop_drop, hdrop, List.drop_left]

namespace Markup

/-- Pieces that begin with `<`, as all tags do. -/
def Bracketed (P : Bytes → Prop) : Prop := ∀ piece, P piece → piece.head? = some lt

theorem bracketed_isOpeningOf (names : List Bytes) : Bracketed (IsOpeningOf names) := by
  intro piece hpiece
  obtain ⟨name, -, word, attributes, rfl, -⟩ := hpiece
  rfl

theorem bracketed_isOpening (name : Bytes) : Bracketed (IsOpening name) :=
  isOpeningOf_singleton name ▸ bracketed_isOpeningOf [name]

theorem bracketed_isClosingOf (spaced : Bool) (names : List Bytes) :
    Bracketed (IsClosingOf spaced names) := by
  intro piece hpiece
  obtain ⟨name, -, word, blanks, rfl, -⟩ := hpiece
  rfl

theorem occurs_isOpeningOf_of_mem {names : List Bytes} {name bytes : Bytes} {start stop : Nat}
    (hname : name ∈ names) (hoccurs : Occurs (IsOpening name) bytes start stop) :
    Occurs (IsOpeningOf names) bytes start stop :=
  hoccurs.mono fun _ hpiece => ⟨name, hname, hpiece⟩

theorem occurs_isClosingOf_of_mem {spaced : Bool} {names : List Bytes} {name bytes : Bytes}
    {start stop : Nat} (hname : name ∈ names)
    (hoccurs : Occurs (IsClosing spaced name) bytes start stop) :
    Occurs (IsClosingOf spaced names) bytes start stop :=
  hoccurs.mono fun _ hpiece => ⟨name, hname, hpiece⟩

theorem occurs_isClosingOf_of_exact {names : List Bytes} {bytes : Bytes} {start stop : Nat}
    (hoccurs : Occurs (IsClosingOf false names) bytes start stop) :
    Occurs (IsClosingOf true names) bytes start stop := by
  apply hoccurs.mono
  intro piece hpiece
  obtain ⟨name, hname, hclosing⟩ := hpiece
  exact ⟨name, hname, hclosing.of_exact⟩

section Bounds

variable {P : Bytes → Prop} {bytes : Bytes} {start stop : Nat}

theorem Bracketed.exists_tail (hP : Bracketed P) (hoccurs : Occurs P bytes start stop) :
    ∃ tail, bytes.drop start = lt :: tail := by
  obtain ⟨piece, rest, hdrop, -, hpiece⟩ := hoccurs
  obtain ⟨others, rfl⟩ := List.head?_eq_some_iff.mp (hP piece hpiece)
  exact ⟨others ++ rest, hdrop⟩

theorem Bracketed.getElem?_eq (hP : Bracketed P) (hoccurs : Occurs P bytes start stop) :
    bytes[start]? = some lt := by
  obtain ⟨tail, hdrop⟩ := hP.exists_tail hoccurs
  have hhead := congrArg List.head? hdrop
  rwa [List.head?_drop, List.head?_cons] at hhead

theorem Bracketed.start_lt_stop (hP : Bracketed P) (hoccurs : Occurs P bytes start stop) :
    start < stop := by
  obtain ⟨piece, rest, -, hstop, hpiece⟩ := hoccurs
  obtain ⟨others, rfl⟩ := List.head?_eq_some_iff.mp (hP piece hpiece)
  rw [hstop, List.length_cons]
  omega

theorem Bracketed.stop_le_length (hP : Bracketed P) (hoccurs : Occurs P bytes start stop) :
    stop ≤ bytes.length := by
  have hlt := hP.start_lt_stop hoccurs
  obtain ⟨piece, rest, hdrop, hstop, -⟩ := hoccurs
  have hlength := congrArg List.length hdrop
  rw [List.length_drop, List.length_append] at hlength
  omega

/-- What stands before a piece can be taken along. -/
theorem Bracketed.extend_left (hP : Bracketed P) {Q : Bytes → Prop}
    (himp : ∀ content piece, P piece → Q (content ++ piece)) {before : Nat}
    (hbefore : before ≤ start) (hoccurs : Occurs P bytes start stop) :
    Occurs Q bytes before stop := by
  have hlt := hP.start_lt_stop hoccurs
  have hle := hP.stop_le_length hoccurs
  have hcontent : Occurs (fun _ => True) bytes before start := by
    refine ⟨(bytes.drop before).take (start - before), _, (List.take_append_drop _ _).symm, ?_,
      trivial⟩
    rw [List.length_take, List.length_drop]
    omega
  exact hcontent.append (fun content piece _ hpiece => himp content piece hpiece) hoccurs

theorem Bracketed.not_occurs (hP : Bracketed P) {b : UInt8} {tail : Bytes}
    (hdrop : bytes.drop start = b :: tail) (hb : b ≠ lt) : ¬ Occurs P bytes start stop := by
  intro hoccurs
  obtain ⟨others, hothers⟩ := hP.exists_tail hoccurs
  rw [hdrop, List.cons.injEq] at hothers
  exact hb hothers.1

theorem FirstOccurs.of_not_occurs (hnone : ∀ finish, ¬ Occurs P bytes start finish) :
    FirstOccurs P bytes start stop ↔ FirstOccurs P bytes (start + 1) stop := by
  constructor
  · intro hclosest
    obtain ⟨first, hfirst, hoccurs, hbefore⟩ := hclosest
    have hne : start ≠ first := fun heq => hnone stop (heq ▸ hoccurs)
    have hlater : ∀ other finish, start + 1 ≤ other → other < first →
        ¬ Occurs P bytes other finish :=
      fun other finish hother => hbefore other finish (Nat.le_of_succ_le hother)
    exact ⟨first, Nat.lt_of_le_of_ne hfirst hne, hoccurs, hlater⟩
  · intro hclosest
    obtain ⟨first, hfirst, hoccurs, hbefore⟩ := hclosest
    have hall : ∀ other finish, start ≤ other → other < first →
        ¬ Occurs P bytes other finish := by
      intro other finish hother hlt
      by_cases heq : start = other
      · subst heq
        exact hnone finish
      · exact hbefore other finish (Nat.lt_of_le_of_ne hother heq) hlt
    exact ⟨first, Nat.le_of_succ_le hfirst, hoccurs, hall⟩

end Bounds

/-! ## Opening tags -/

/-- The opening tag at an offset. -/
def openingAt? (names : List Bytes) (bytes : Bytes) (start : Nat) : Option Opening :=
  match bytes.drop start with
  | [] => none
  | b :: tail => if b = lt then opening? names tail else none

theorem openingAt?_eq_some_iff {names : List Bytes} {bytes : Bytes} {start : Nat}
    {tag : Opening} :
    openingAt? names bytes start = some tag ↔
      ∃ tail, bytes.drop start = lt :: tail ∧ opening? names tail = some tag := by
  rw [openingAt?]
  cases bytes.drop start with
  | nil => simp
  | cons b tail =>
      by_cases hb : b = lt
      · simp [hb]
      · simp [hb]

theorem occurs_of_openingAt? {names : List Bytes} {bytes : Bytes} {start : Nat} {tag : Opening}
    (hopens : openingAt? names bytes start = some tag) :
    tag.name ∈ names ∧ Occurs (IsOpening tag.name) bytes start (start + 1 + tag.length) := by
  obtain ⟨tail, hdrop, htag⟩ := openingAt?_eq_some_iff.mp hopens
  obtain ⟨hmem, piece, rest, htail, hlength, hpiece⟩ := isOpening_of_opening? htag
  exact ⟨hmem, piece, rest, hdrop.trans htail, by omega, hpiece⟩

theorem occurs_isOpeningOf_iff {names : List Bytes} (hlabels : ∀ name ∈ names, IsLabel name)
    {bytes : Bytes} {start stop : Nat} :
    Occurs (IsOpeningOf names) bytes start stop ↔
      ∃ tag, openingAt? names bytes start = some tag ∧ stop = start + 1 + tag.length := by
  constructor
  · intro hoccurs
    obtain ⟨tail, hdrop⟩ := (bracketed_isOpeningOf names).exists_tail hoccurs
    obtain ⟨piece, rest, hpieces, rfl, name, hname, hpiece⟩ := hoccurs
    obtain ⟨tag, htag, hlength⟩ :=
      exists_opening?_of_isOpening hlabels hname (hdrop.symm.trans hpieces) hpiece
    exact ⟨tag, openingAt?_eq_some_iff.mpr ⟨tail, hdrop, htag⟩, by omega⟩
  · intro hfound
    obtain ⟨tag, hopens, rfl⟩ := hfound
    obtain ⟨hmem, hoccurs⟩ := occurs_of_openingAt? hopens
    exact occurs_isOpeningOf_of_mem hmem hoccurs

theorem openingAt?_eq_none_iff {names : List Bytes} (hlabels : ∀ name ∈ names, IsLabel name)
    {bytes : Bytes} {start : Nat} :
    openingAt? names bytes start = none ↔
      ∀ stop, ¬ Occurs (IsOpeningOf names) bytes start stop := by
  rw [Option.eq_none_iff_forall_ne_some]
  constructor
  · intro hnone stop hoccurs
    obtain ⟨tag, hopens, -⟩ := (occurs_isOpeningOf_iff hlabels).mp hoccurs
    exact hnone tag hopens
  · intro hnone tag hopens
    exact hnone _ ((occurs_isOpeningOf_iff hlabels).mpr ⟨tag, hopens, rfl⟩)

/-! ## Closing tags -/

theorem occurs_isClosingOf_iff {spaced : Bool} {names : List Bytes}
    (hlabels : ∀ name ∈ names, IsLabel name) {bytes tail : Bytes} {start stop : Nat}
    (hdrop : bytes.drop start = lt :: tail) :
    Occurs (IsClosingOf spaced names) bytes start stop ↔
      ∃ n, names.findSome? (closing? spaced · tail) = some n ∧ stop = start + 1 + n := by
  constructor
  · intro hoccurs
    obtain ⟨piece, rest, hpieces, rfl, name, hname, hpiece⟩ := hoccurs
    have hclosing := closing?_of_isClosing (hdrop.symm.trans hpieces) hpiece
    have hfind : (names.findSome? (closing? spaced · tail)).isSome := by
      rw [List.findSome?_isSome_iff]
      exact ⟨name, hname, by rw [hclosing]; rfl⟩
    obtain ⟨n, hn⟩ := Option.isSome_iff_exists.mp hfind
    refine ⟨n, hn, ?_⟩
    obtain ⟨found, hfound, hclosing⟩ := List.exists_of_findSome?_eq_some hn
    obtain ⟨other, behind, htail, hlength, hother⟩ := closing?_eq_some_iff.mp hclosing
    have hleft := hpiece.throughGt?_append (hlabels name hname) rest
    have hright := hother.throughGt?_append (hlabels found hfound) behind
    rw [← htail, ← hdrop, hpieces, hleft, Option.some.injEq] at hright
    omega
  · intro hfound
    obtain ⟨n, hn, rfl⟩ := hfound
    obtain ⟨name, hname, hclosing⟩ := List.exists_of_findSome?_eq_some hn
    obtain ⟨piece, rest, htail, hlength, hpiece⟩ := closing?_eq_some_iff.mp hclosing
    exact ⟨piece, rest, hdrop.trans htail, by omega, name, hname, hpiece⟩

/-- The end of the closing tag at an offset. -/
def closingAt? (spaced : Bool) (names : List Bytes) (bytes : Bytes) (start : Nat) : Option Nat :=
  match bytes.drop start with
  | [] => none
  | b :: tail =>
    if b = lt then (names.findSome? (closing? spaced · tail)).map (start + 1 + ·) else none

theorem closingAt?_eq_some_iff {spaced : Bool} {names : List Bytes}
    (hlabels : ∀ name ∈ names, IsLabel name) {bytes : Bytes} {start stop : Nat} :
    closingAt? spaced names bytes start = some stop ↔
      Occurs (IsClosingOf spaced names) bytes start stop := by
  have hP := bracketed_isClosingOf spaced names
  rw [closingAt?]
  cases hdrop : bytes.drop start with
  | nil =>
      simp only [reduceCtorEq, false_iff]
      intro hoccurs
      obtain ⟨tail, htail⟩ := hP.exists_tail hoccurs
      rw [hdrop] at htail
      cases htail
  | cons b tail =>
      by_cases hb : b = lt
      · subst hb
        simp only [if_true, Option.map_eq_some_iff, occurs_isClosingOf_iff hlabels hdrop]
        simp only [eq_comm]
      · simp only [hb, if_false, reduceCtorEq, false_iff]
        exact hP.not_occurs hdrop hb

theorem closingAt?_eq_none_iff {spaced : Bool} {names : List Bytes}
    (hlabels : ∀ name ∈ names, IsLabel name) {bytes : Bytes} {start : Nat} :
    closingAt? spaced names bytes start = none ↔
      ∀ stop, ¬ Occurs (IsClosingOf spaced names) bytes start stop := by
  simp only [Option.eq_none_iff_forall_ne_some, ne_eq, closingAt?_eq_some_iff hlabels]

/-- The nearest rule finds the first exact closing tag. -/
theorem nearestClose?_eq_some_iff {names : List Bytes} (hlabels : ∀ name ∈ names, IsLabel name)
    {bytes rest : Bytes} {pos stop : Nat} (hrest : bytes.drop pos = rest) :
    nearestClose? names pos rest = some stop ↔
      FirstOccurs (IsClosingOf false names) bytes pos stop := by
  have hP := bracketed_isClosingOf false names
  fun_induction nearestClose? names pos rest with
  | case1 pos =>
      simp only [reduceCtorEq, false_iff]
      intro hclosest
      obtain ⟨first, hfirst, hoccurs, -⟩ := hclosest
      have hlt := hP.start_lt_stop hoccurs
      have hle := hP.stop_le_length hoccurs
      have hlength := List.drop_eq_nil_iff.mp hrest
      omega
  | case2 pos tail n hn =>
      rw [Option.some.injEq]
      have hhere := (occurs_isClosingOf_iff hlabels hrest).mpr ⟨n, hn, rfl⟩
      constructor
      · intro hstop
        subst hstop
        exact ⟨pos, Nat.le_refl _, hhere,
          fun other finish hother hlt => absurd hlt (Nat.not_lt.mpr hother)⟩
      · intro hclosest
        obtain ⟨first, hfirst, hoccurs, hbefore⟩ := hclosest
        have heq : first = pos := by
          by_contra hne
          exact hbefore pos _ (Nat.le_refl _) (by omega) hhere
        subst heq
        obtain ⟨m, hm, rfl⟩ := (occurs_isClosingOf_iff hlabels hrest).mp hoccurs
        rw [hn, Option.some.injEq] at hm
        rw [hm]
  | case3 pos tail hnone ih =>
      have habsent : ∀ finish, ¬ Occurs (IsClosingOf false names) bytes pos finish := by
        intro finish hoccurs
        obtain ⟨n, hn, -⟩ := (occurs_isClosingOf_iff hlabels hrest).mp hoccurs
        rw [hnone] at hn
        cases hn
      rw [FirstOccurs.of_not_occurs habsent]
      exact ih (drop_succ_of_drop_eq_cons hrest 0)
  | case4 pos b tail hb ih =>
      rw [FirstOccurs.of_not_occurs fun finish => hP.not_occurs hrest hb]
      exact ih (drop_succ_of_drop_eq_cons hrest 0)

end Markup

end MarkupSeeds
