import Mathlib.Data.List.TakeWhile
import MarkupSeeds.Fixture

/-!
# Names of fixtures

A fixture is known by what follows the last dot of its name.  A dot that nothing stands before
begins no extension, so a name that is an extension only is none of a fixture.
-/

namespace MarkupSeeds

/-- The extension is what follows the last dot, with something before the dot. -/
theorem Path.extension?_eq_some_iff {name : String} {extension : List Char} :
    extension? name = some extension ↔
      ∃ stem, stem ≠ [] ∧ '.' ∉ extension ∧ name.toList = stem ++ '.' :: extension := by
  constructor
  · intro hextension
    have hsplit := List.takeWhile_append_dropWhile (p := (· != '.')) (l := name.toList.reverse)
    rw [extension?] at hextension
    split at hextension
    · rename_i dot c rest hdrop
      cases hextension
      have hdot : dot = '.' := by
        have hhead := List.head?_dropWhile_not (· != '.') name.toList.reverse
        rw [hdrop] at hhead
        simpa using hhead
      rw [hdrop, hdot] at hsplit
      refine ⟨(c :: rest).reverse, by simp, ?_, ?_⟩
      · intro hmem
        have hkept := List.mem_takeWhile_imp (List.mem_reverse.mp hmem)
        simp at hkept
      · calc
          name.toList = name.toList.reverse.reverse := (List.reverse_reverse _).symm
          _ = (_ ++ '.' :: c :: rest).reverse := by rw [hsplit]
          _ = _ := by simp
    · cases hextension
  · rintro ⟨stem, hstem, hdot, hname⟩
    have hskip : ∀ c ∈ extension.reverse, (c != '.') = true := by
      intro c hmem
      rw [bne_iff_ne]
      rintro rfl
      exact hdot (List.mem_reverse.mp hmem)
    obtain ⟨c, rest, hback⟩ :=
      List.exists_cons_of_ne_nil (mt List.reverse_eq_nil_iff.mp hstem)
    have hreversed : name.toList.reverse = extension.reverse ++ '.' :: c :: rest := by
      rw [hname, List.reverse_append, List.reverse_cons, hback, List.append_assoc,
        List.singleton_append]
    rw [extension?, hreversed, List.dropWhile_append_of_pos hskip,
      List.takeWhile_append_of_pos hskip, List.dropWhile_cons_of_neg (by decide),
      List.takeWhile_cons_of_neg (by decide), List.append_nil, List.reverse_reverse]

/-- A name that something stands before the last dot of, and the letters of the extension, large or
small, behind it. -/
def CarriesExtension (name : String) : Prop :=
  ∃ stem extension : List Char, stem ≠ [] ∧ '.' ∉ extension ∧
    name.toList = stem ++ '.' :: extension ∧ extension.map Char.toLower = ['h', 't', 'm', 'l']

theorem isFixtureName_iff {name : String} : isFixtureName name ↔ CarriesExtension name := by
  have hletters : fixtureExtension.toList = ['h', 't', 'm', 'l'] := by decide
  rw [isFixtureName, hletters]
  constructor
  · intro hfixture
    split at hfixture
    · rename_i extension hextension
      obtain ⟨stem, hstem, hdot, hname⟩ := Path.extension?_eq_some_iff.mp hextension
      exact ⟨stem, extension, hstem, hdot, hname, eq_of_beq hfixture⟩
    · cases hfixture
  · rintro ⟨stem, extension, hstem, hdot, hname, hspelled⟩
    have hextension := Path.extension?_eq_some_iff.mpr ⟨stem, hstem, hdot, hname⟩
    rw [hextension]
    exact beq_iff_eq.mpr hspelled

/-- A name without a dot is not that of a fixture. -/
theorem not_isFixtureName_of_not_mem {name : String} (hdot : '.' ∉ name.toList) :
    ¬ isFixtureName name := by
  rw [isFixtureName_iff]
  rintro ⟨stem, extension, -, -, hname, -⟩
  rw [hname] at hdot
  exact hdot (List.mem_append_right _ List.mem_cons_self)

end MarkupSeeds
