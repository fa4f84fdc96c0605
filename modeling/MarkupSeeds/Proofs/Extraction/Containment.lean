import MarkupSeeds.Proofs.Extraction.Budget
import MarkupSeeds.Proofs.Markup.Locality

/-!
# A larger bound

With a larger bound on the length the balanced scan follows another course: what it used
to reject and enter it may now keep as a whole.  Elements of a name are nested properly,
as long as none of its opening tags has a further `<` before its `>`.  Whatever the scan
kept with the smaller bound is then kept with the larger one, if not by itself, then as a
part of an element around it.
-/

namespace MarkupSeeds

namespace Markup

/-- No opening tag of the name has a further `<` before its `>`. -/
def IsPlain (name bytes : Bytes) : Prop :=
  ∀ start stop, Occurs (IsOpening name) bytes start stop →
    ∀ p, start < p → p < stop → bytes[p]? ≠ some lt

/-- Whether opening tags are plain can be found out with the recogniser. -/
theorem isPlain_iff {name bytes : Bytes} (hlabel : IsLabel name) :
    IsPlain name bytes ↔
      ∀ start < bytes.length, ∀ tag ∈ openingAt? [name] bytes start,
        ∀ n < tag.length, bytes[start + 1 + n]? ≠ some lt := by
  have hlabels : ∀ other ∈ [name], IsLabel other := List.forall_mem_singleton.mpr hlabel
  have hP := bracketed_isOpening name
  constructor
  · intro hplain start _ tag hopens n hn
    obtain ⟨hname, hoccurs⟩ := occurs_of_openingAt? hopens
    rw [List.mem_singleton.mp hname] at hoccurs
    exact hplain start _ hoccurs _ (by omega) (by omega)
  · intro hcheck start stop hoccurs p hstart hstop
    have hlt := hP.start_lt_stop hoccurs
    have hle := hP.stop_le_length hoccurs
    rw [← isOpeningOf_singleton, occurs_isOpeningOf_iff hlabels] at hoccurs
    obtain ⟨tag, hopens, rfl⟩ := hoccurs
    have hp := hcheck start (by omega) tag hopens (p - (start + 1)) (by omega)
    rwa [Nat.add_sub_cancel' hstart] at hp

section Nested

variable {name bytes : Bytes} {depth pos start middle stop p finish last : Nat}

/-- No opening tag begins in a closing tag. -/
theorem le_of_closing (hlabel : IsLabel name)
    (hclosing : Occurs (IsClosing true name) bytes start stop)
    (hopening : Occurs (IsOpening name) bytes p finish) (hstart : start ≤ p) : stop ≤ p := by
  by_contra hinside
  rcases Nat.eq_or_lt_of_le hstart with rfl | hbehind
  · exact not_occurs_isOpening_of_isClosing hlabel hclosing hopening
  · exact hclosing.getElem?_ne_lt (fun _ hpiece => hpiece.lt_not_mem_tail hlabel) hbehind
      (Nat.not_le.mp hinside) ((bracketed_isOpening name).getElem?_eq hopening)

/-- No opening tag begins behind the `<` of a plain one. -/
theorem IsPlain.le_of_opening (hplain : IsPlain name bytes)
    (houter : Occurs (IsOpening name) bytes start stop)
    (hopening : Occurs (IsOpening name) bytes p finish) (hstart : start < p) : stop ≤ p := by
  by_contra hinside
  exact hplain start stop houter p hstart (Nat.not_le.mp hinside)
    ((bracketed_isOpening name).getElem?_eq hopening)

/-- Behind an opening tag in balanced bytes, more elements are open than the one that the
opening tag begins. -/
theorem IsPlain.exists_balances_behind (hlabel : IsLabel name) (hplain : IsPlain name bytes)
    (hbalances : Occurs (Balances name depth) bytes pos stop) (hdepth : 1 ≤ depth)
    (hopening : Occurs (IsOpening name) bytes p finish) (hpos : pos ≤ p) (hstop : p < stop) :
    ∃ outer, 1 ≤ outer ∧ Occurs (Balances name (outer + 1)) bytes finish stop := by
  obtain ⟨piece, rest, hdrop, rfl, hpiece⟩ := hbalances
  induction hpiece generalizing pos with
  | @last tag hclosing =>
      have hle := le_of_closing hlabel ⟨tag, rest, hdrop, rfl, hclosing⟩ hopening hpos
      omega
  | @closes depth tag piece hclosing hpiece ih =>
      rw [List.append_assoc] at hdrop
      have htag : Occurs (IsClosing true name) bytes pos (pos + tag.length) :=
        ⟨tag, piece ++ rest, hdrop, rfl, hclosing⟩
      have hle := le_of_closing hlabel htag hopening hpos
      rw [List.length_append, ← Nat.add_assoc] at hstop ⊢
      exact ih (Nat.le_add_left ..) hle (drop_add_of_drop_eq_append hdrop) hstop
  | @opens depth tag piece hnotClosing htag hpiece ih =>
      rw [List.append_assoc] at hdrop
      have houter : Occurs (IsOpening name) bytes pos (pos + tag.length) :=
        ⟨tag, piece ++ rest, hdrop, rfl, htag⟩
      have hbehind := drop_add_of_drop_eq_append hdrop
      rw [List.length_append, ← Nat.add_assoc] at hstop ⊢
      rcases Nat.eq_or_lt_of_le hpos with rfl | hlater
      · -- The opening tag is the one that the bytes begin with.
        have hlt := (bracketed_isOpening name).start_lt_stop houter
        rw [← isOpeningOf_singleton] at houter hopening
        have hsame := stop_eq_of_inside (List.forall_mem_singleton.mpr hlabel) houter hopening
          (Nat.le_refl pos) hlt
        subst hsame
        exact ⟨depth, hdepth, piece, rest, hbehind, rfl, hpiece⟩
      · have hle := hplain.le_of_opening houter hopening hlater
        exact ih (Nat.le_add_left ..) hle hbehind hstop
  | @skips depth b piece hnotClosing hnotOpening hpiece ih =>
      rcases Nat.eq_or_lt_of_le hpos with rfl | hlater
      · obtain ⟨tag, behind, hdrop', -, htag⟩ := hopening
        have hstarts : StartsWith (IsOpening name) (b :: piece ++ rest) :=
          ⟨tag, ⟨behind, hdrop'.symm.trans hdrop⟩, htag⟩
        have hgt : gt ∈ b :: piece := List.mem_cons_of_mem b hpiece.gt_mem
        exact absurd (StartsWith.of_append (endsAtGt_isOpening hlabel) hgt hstarts) hnotOpening
      · have hend : pos + (b :: piece).length = pos + 1 + piece.length := by
          rw [List.length_cons, Nat.add_assoc, Nat.add_comm 1]
        rw [hend] at hstop ⊢
        exact ih hdepth hlater (drop_succ_of_drop_eq_cons hdrop 0) hstop

/-- An element that begins in the content of another one ends before it. -/
theorem IsPlain.nested (hlabel : IsLabel name) (hplain : IsPlain name bytes)
    (houter : Occurs (IsOpening name) bytes start middle)
    (houterEnd : Occurs (Balances name 1) bytes middle stop)
    (hinner : Occurs (IsOpening name) bytes p finish)
    (hinnerEnd : Occurs (Balances name 1) bytes finish last) (hstart : start < p)
    (hstop : p < stop) : last < stop := by
  have hmiddle := hplain.le_of_opening houter hinner hstart
  obtain ⟨outer, houterOpen, hbehind⟩ :=
    hplain.exists_balances_behind hlabel houterEnd (Nat.le_refl 1) hinner hmiddle hstop
  obtain ⟨inside, rest, hdrop, rfl, hinside⟩ := hinnerEnd
  obtain ⟨whole, behind, hdrop', rfl, hwhole⟩ := hbehind
  -- With `outer` more elements open, the search passes the end of the inner element.
  have hpast : balancedClose? name none (1 + outer) finish (bytes.drop finish) =
      balancedClose? name none outer (finish + inside.length) rest := by
    rw [hdrop, hinside.balancedClose?_append hlabel (Nat.le_refl 1), if_neg (by omega)]
  have hend : balancedClose? name none (outer + 1) finish (bytes.drop finish) =
      some (finish + whole.length) := by
    rw [hdrop']
    exact hwhole.balancedClose?_append hlabel (Nat.le_add_left 1 outer) 0 finish behind
  rw [Nat.add_comm, hend] at hpast
  exact lt_of_balancedClose? hpast.symm

end Nested

end Markup

namespace Extractor

open Markup

section Positions

variable {shape : Shape} {bytes : Bytes} {less more : Nat}

/-- What is found and kept with a bound is found and would be kept with a larger one. -/
theorem Candidate.of_le (hle : less ≤ more) {start stop : Nat} {tag : Opening}
    (hcandidate : Candidate ⟨less, .balanced⟩ shape
      (some (⟨less, .balanced⟩ : Extractor).budget) bytes start tag stop) :
    Candidate ⟨more, .balanced⟩ shape (some (⟨more, .balanced⟩ : Extractor).budget) bytes start
      tag stop := by
  obtain ⟨hunlimited, hlimit⟩ := candidate_some_budget_iff.mp hcandidate
  refine candidate_some_budget_iff.mpr ⟨⟨hunlimited.opens, hunlimited.ends⟩, ?_⟩
  intro hkind hnesting
  have hstop := hlimit hkind rfl
  simp only [budget, Size.satMul, Size.satAdd] at hstop ⊢
  omega

theorem keepsSpan_of_le (hle : less ≤ more) {span : Span}
    (hkeeps : (⟨less, .balanced⟩ : Extractor).keepsSpan bytes span = true) :
    (⟨more, .balanced⟩ : Extractor).keepsSpan bytes span = true := by
  simp only [keepsSpan, keeps, Bool.and_eq_true, decide_eq_true_eq] at hkeeps ⊢
  exact ⟨hkeeps.1, Nat.le_trans hkeeps.2 hle⟩

end Positions

/-- With a larger bound the balanced scan of a single name never uncovers what it covered:
every span that it kept is kept again, or lies in one that is kept. -/
theorem spans_covered_of_le {name text : String} (hshape : Shape.paired [name] ∈ shapes)
    (hplain : IsPlain (Utf8.encode name) (Utf8.encode text)) {less more : Nat}
    (hle : less ≤ more) :
    ∀ span ∈ (⟨less, .balanced⟩ : Extractor).spans (.paired [name]) (Utf8.encode text),
      ∃ outer ∈ (⟨more, .balanced⟩ : Extractor).spans (.paired [name]) (Utf8.encode text),
        outer.start ≤ span.start ∧ span.stop ≤ outer.stop := by
  have hlabels := isLabel_of_mem_shapes hshape
  have hlabel : IsLabel (Utf8.encode name) := hlabels _ (List.mem_singleton_self _)
  have hname : ∀ {e : Extractor} {budget : Option Nat} {start stop : Nat} {tag : Opening},
      Candidate e (.paired [name]) budget (Utf8.encode text) start tag stop →
        tag.name = Utf8.encode name :=
    fun hcandidate => List.mem_singleton.mp hcandidate.name_mem
  intro span hmem
  obtain ⟨hkeeps, tag, hless⟩ := (course_spans hlabels).exists_candidate span hmem
  have hcandidate := hless.of_le hle
  have hopening := hname hcandidate ▸ hcandidate.occurs_opening
  rcases (course_spans hlabels).covers hlabels rfl (Nat.zero_le _) hcandidate
    (keepsSpan_of_le hle hkeeps) with hkept | ⟨outer, hmore, hstart, hstop⟩ | hinside
  · exact ⟨span, hkept, Nat.le_refl _, Nat.le_refl _⟩
  · -- The span begins in one that was kept before it, and so it ends there.
    obtain ⟨-, outerTag, houter⟩ := (course_spans hlabels).exists_candidate outer hmore
    have hnested := hplain.nested hlabel (hname houter ▸ houter.occurs_opening)
      (hname houter ▸ houter.occurs_balances hlabels rfl rfl) hopening
      (hname hcandidate ▸ hcandidate.occurs_balances hlabels rfl rfl) hstart hstop
    exact ⟨outer, hmore, Nat.le_of_lt hstart, Nat.le_of_lt hnested⟩
  · -- No span begins inside of a plain opening tag.
    obtain ⟨start, stop, hoccurs, hstart, hstop⟩ := hinside
    have houter : Occurs (IsOpening (Utf8.encode name)) (Utf8.encode text) start stop :=
      isOpeningOf_singleton (Utf8.encode name) ▸ hoccurs
    have hbehind := hplain.le_of_opening houter hopening hstart
    omega

/-- With the smaller bound the outer element is entered, with the larger one it is kept. -/
theorem spans_covered_of_le_of_divisions :
    let text := "<div>one <DIV id=2>twö</div > three</div><div>open <div>four</div>"
    let spans := fun maxLength : Nat =>
      (⟨maxLength, .balanced⟩ : Extractor).spans (.paired ["div"]) (Utf8.encode text)
    Shape.paired ["div"] ∈ shapes ∧ IsPlain (Utf8.encode "div") (Utf8.encode text) ∧ 24 ≤ 60 ∧
      spans 24 = [⟨9, 30⟩, ⟨52, 67⟩] ∧ spans 60 = [⟨0, 42⟩, ⟨52, 67⟩] ∧
      ∀ span ∈ spans 24, ∃ outer ∈ spans 60,
        outer.start ≤ span.start ∧ span.stop ≤ outer.stop := by
  intro text spans
  have hshape : Shape.paired ["div"] ∈ shapes := by decide
  have hplain : IsPlain (Utf8.encode "div") (Utf8.encode text) := by
    rw [isPlain_iff (isLabel_of_mem_shapes hshape _ (List.mem_singleton_self _))]
    decide +kernel
  exact ⟨hshape, hplain, by decide, by decide +kernel, by decide +kernel,
    spans_covered_of_le hshape hplain (by decide)⟩

/-- Opening tags have to be plain: the inner element begins in an attribute of the outer one,
which the smaller limit on the search hides. -/
example :
    let bytes := Utf8.encode "<p title='longer than the limit of the search <p>Hello</p>"
    (⟨12, .balanced⟩ : Extractor).spans (.paired ["p"]) bytes = [⟨46, 58⟩] ∧
      (⟨30, .balanced⟩ : Extractor).spans (.paired ["p"]) bytes = [] := by
  decide +kernel

end Extractor

end MarkupSeeds
