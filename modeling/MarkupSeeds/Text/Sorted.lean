/-!
# Sorted texts

Lists of texts in strictly ascending order, so that each text occurs at most once
and the list is determined by its members.  Texts are ordered by code points.
-/

namespace MarkupSeeds.Sorted

def Ascending (texts : List String) : Prop := texts.Pairwise (· < ·)

/-- Puts a text in its place, unless it is there already. -/
def insert? (text : String) : List String → Option (List String)
  | [] => some [text]
  | t :: rest =>
    if text < t then some (text :: t :: rest)
    else if text = t then none
    else (insert? text rest).map (t :: ·)

theorem mem_of_insert? {text : String} {texts texts' : List String}
    (hplaced : insert? text texts = some texts') (t : String) :
    t ∈ texts' ↔ t = text ∨ t ∈ texts := by
  induction texts generalizing texts' with
  | nil => simp_all [insert?, eq_comm]
  | cons head rest ih =>
    simp only [insert?] at hplaced
    split at hplaced
    · cases hplaced
      simp
    split at hplaced
    · cases hplaced
    · obtain ⟨placed, hrest, rfl⟩ := Option.map_eq_some_iff.mp hplaced
      simp only [List.mem_cons, ih hrest]
      constructor
      · rintro (h | h | h) <;> simp [h]
      · rintro (h | h | h) <;> simp [h]

theorem ascending_insert? {text : String} {texts texts' : List String}
    (hsorted : Ascending texts) (hplaced : insert? text texts = some texts') :
    Ascending texts' := by
  induction texts generalizing texts' with
  | nil =>
    cases hplaced
    exact List.pairwise_singleton _ _
  | cons head rest ih =>
    have hhead := (List.pairwise_cons.mp hsorted).1
    simp only [insert?] at hplaced
    split at hplaced
    · cases hplaced
      rename_i hlt
      refine List.pairwise_cons.mpr ⟨fun t ht => ?_, hsorted⟩
      rcases List.mem_cons.mp ht with rfl | ht
      · exact hlt
      · exact String.lt_trans hlt (hhead t ht)
    split at hplaced
    · cases hplaced
    · rename_i hnotlt hne
      obtain ⟨placed, hrest, rfl⟩ := Option.map_eq_some_iff.mp hplaced
      refine List.pairwise_cons.mpr ⟨fun t ht => ?_, ih (List.pairwise_cons.mp hsorted).2 hrest⟩
      rcases (mem_of_insert? hrest t).mp ht with rfl | ht
      · exact String.not_le.mp fun hle =>
          hne (String.le_antisymm hle (String.not_lt.mp hnotlt))
      · exact hhead t ht

theorem insert?_eq_none_iff {text : String} {texts : List String} (hsorted : Ascending texts) :
    insert? text texts = none ↔ text ∈ texts := by
  induction texts with
  | nil => simp [insert?]
  | cons head rest ih =>
    obtain ⟨hhead, hrest⟩ := List.pairwise_cons.mp hsorted
    simp only [insert?]
    split
    · rename_i hlt
      simp only [reduceCtorEq, List.mem_cons, false_iff, not_or]
      exact ⟨String.ne_of_lt hlt, fun hmem =>
        String.lt_irrefl _ (String.lt_trans hlt (hhead text hmem))⟩
    split
    · simp_all
    · rename_i hne
      simp [ih hrest, hne]

def insert (text : String) (texts : List String) : List String :=
  (insert? text texts).getD texts

theorem ascending_insert {texts : List String} (hsorted : Ascending texts) (text : String) :
    Ascending (insert text texts) := by
  rw [insert]
  cases hplaced : insert? text texts with
  | none => exact hsorted
  | some placed => exact ascending_insert? hsorted hplaced

theorem mem_insert {texts : List String} (hsorted : Ascending texts) (text t : String) :
    t ∈ insert text texts ↔ t = text ∨ t ∈ texts := by
  rw [insert]
  cases hplaced : insert? text texts with
  | none =>
    have hmem := (insert?_eq_none_iff hsorted).mp hplaced
    simp only [Option.getD_none]
    exact ⟨Or.inr, fun h => h.elim (fun heq => heq ▸ hmem) id⟩
  | some placed => exact mem_of_insert? hplaced t

/-- Inserts texts one after another. -/
def insertAll (texts : List String) (more : List String) : List String :=
  more.foldl (fun acc text => insert text acc) texts

theorem ascending_insertAll {texts : List String} (hsorted : Ascending texts)
    (more : List String) : Ascending (insertAll texts more) := by
  induction more generalizing texts with
  | nil => exact hsorted
  | cons text rest ih => exact ih (ascending_insert hsorted text)

theorem mem_insertAll {texts : List String} (hsorted : Ascending texts) (more : List String)
    (t : String) : t ∈ insertAll texts more ↔ t ∈ texts ∨ t ∈ more := by
  induction more generalizing texts with
  | nil => simp [insertAll]
  | cons text rest ih =>
    have hstep := ih (ascending_insert hsorted text)
    simp only [insertAll, List.foldl_cons] at hstep ⊢
    rw [hstep, mem_insert hsorted, List.mem_cons]
    constructor
    · rintro ((h | h) | h) <;> simp [h]
    · rintro (h | h | h) <;> simp [h]

/-- The members of a list in ascending order. -/
def ofList (texts : List String) : List String := insertAll [] texts

theorem ascending_ofList (texts : List String) : Ascending (ofList texts) :=
  ascending_insertAll List.Pairwise.nil texts

theorem mem_ofList (texts : List String) (t : String) : t ∈ ofList texts ↔ t ∈ texts := by
  rw [ofList, mem_insertAll List.Pairwise.nil]
  simp

theorem eq_of_mem_iff {left right : List String} (hleft : Ascending left)
    (hright : Ascending right) (hmem : ∀ t, t ∈ left ↔ t ∈ right) : left = right := by
  have hnodup : ∀ {texts}, Ascending texts → texts.Nodup :=
    fun hsorted => hsorted.imp String.ne_of_lt
  have hperm := (List.perm_ext_iff_of_nodup (hnodup hleft) (hnodup hright)).mpr hmem
  refine hperm.eq_of_pairwise (fun a b _ _ hab hba => ?_) hleft hright
  exact absurd (String.lt_trans hab hba) (String.lt_irrefl a)

end MarkupSeeds.Sorted
