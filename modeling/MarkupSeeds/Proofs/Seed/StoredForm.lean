import MarkupSeeds.Proofs.Text.WellFormed
import MarkupSeeds.Seed.Pair
import Mathlib.Data.List.TakeDrop

/-!
# The stored form of pairs

No text contains the separator, so a pair can be read back from its stored form, and
only the stored forms of pairs can be read at all: well-formed text on both sides of a
single separator.
-/

namespace MarkupSeeds.Pair

theorem separator_not_mem_of_wellFormed {bytes : Bytes} (hbytes : Utf8.WellFormed bytes) :
    separator ∉ bytes := by
  intro hmem
  exact absurd (hbytes.lt_of_mem separator hmem) (by decide)

theorem separator_not_mem_encode (text : String) : separator ∉ Utf8.encode text :=
  separator_not_mem_of_wellFormed (Utf8.wellFormed_iff_exists_encode.mpr ⟨text, rfl⟩)

theorem span_separator {left : Bytes} (hleft : separator ∉ left) (right : Bytes) :
    (left ++ separator :: right).span (· != separator) = (left, separator :: right) := by
  have hskip : ∀ b ∈ left, (b != separator) = true :=
    fun b hmem => bne_iff_ne.mpr fun heq => hleft (heq ▸ hmem)
  rw [List.span_eq_takeWhile_dropWhile, List.takeWhile_append_of_pos hskip,
    List.dropWhile_append_of_pos hskip, List.takeWhile_cons_of_neg (by decide),
    List.dropWhile_cons_of_neg (by decide), List.append_nil]

/-- Where the first separator stands, a pair is read on its two sides. -/
theorem decode?_append_eq_some_iff {left : Bytes} (hleft : separator ∉ left) (right : Bytes)
    (pair : Pair) :
    decode? (left ++ separator :: right) = some pair ↔
      Utf8.decode? left = some pair.before ∧ Utf8.decode? right = some pair.after := by
  rw [decode?, span_separator hleft]
  constructor
  · intro hdecode
    obtain ⟨before, hbefore, hrest⟩ := Option.bind_eq_some_iff.mp hdecode
    obtain ⟨after, hafter, hreturn⟩ := Option.bind_eq_some_iff.mp hrest
    cases hreturn
    exact ⟨hbefore, hafter⟩
  · intro hsides
    simp only [hsides.1, hsides.2]
    rfl

theorem decode?_eq_none {bytes : Bytes} (hnone : separator ∉ bytes) : decode? bytes = none := by
  have hskip : ∀ b ∈ bytes, (b != separator) = true :=
    fun b hmem => bne_iff_ne.mpr fun heq => hnone (heq ▸ hmem)
  rw [decode?, List.span_eq_takeWhile_dropWhile, List.dropWhile_eq_nil_iff.mpr hskip]

/-- Bytes with a separator have a first one. -/
theorem exists_first_separator {bytes : Bytes} (hmem : separator ∈ bytes) :
    ∃ left right, bytes = left ++ separator :: right ∧ separator ∉ left := by
  obtain ⟨left, right, hleft, heq, -⟩ := List.exists_erase_eq hmem
  exact ⟨left, right, heq, hleft⟩

/-- Reading a pair undoes writing it, and nothing else can be read. -/
theorem decode?_eq_some_iff {bytes : Bytes} {pair : Pair} :
    decode? bytes = some pair ↔ pair.encode = bytes := by
  constructor
  · intro hdecode
    by_cases hmem : separator ∈ bytes
    · obtain ⟨left, right, rfl, hleft⟩ := exists_first_separator hmem
      obtain ⟨hbefore, hafter⟩ := (decode?_append_eq_some_iff hleft right pair).mp hdecode
      rw [encode, Utf8.decode?_eq_some_iff.mp hbefore, Utf8.decode?_eq_some_iff.mp hafter]
    · rw [decode?_eq_none hmem] at hdecode
      cases hdecode
  · intro hencode
    rw [← hencode, encode, decode?_append_eq_some_iff (separator_not_mem_encode pair.before)]
    exact ⟨Utf8.decode?_eq_some_iff.mpr rfl, Utf8.decode?_eq_some_iff.mpr rfl⟩

/-- Stored forms of pairs are the bytes with a single separator between well-formed texts. -/
theorem exists_encode_iff {bytes : Bytes} :
    (∃ pair : Pair, pair.encode = bytes) ↔
      bytes.count separator = 1 ∧ ∃ left right, bytes = left ++ separator :: right ∧
        Utf8.WellFormed left ∧ Utf8.WellFormed right := by
  constructor
  · intro hstored
    obtain ⟨pair, rfl⟩ := hstored
    have hsides : ∀ text, (Utf8.encode text).count separator = 0 :=
      fun text => List.count_eq_zero.mpr (separator_not_mem_encode text)
    refine ⟨?_, _, _, rfl, Utf8.wellFormed_iff_exists_encode.mpr ⟨_, rfl⟩,
      Utf8.wellFormed_iff_exists_encode.mpr ⟨_, rfl⟩⟩
    rw [encode, List.count_append, List.count_cons_self, hsides, hsides]
  · intro hbytes
    obtain ⟨-, left, right, rfl, hleft, hright⟩ := hbytes
    obtain ⟨before, rfl⟩ := Utf8.wellFormed_iff_exists_encode.mp hleft
    obtain ⟨after, rfl⟩ := Utf8.wellFormed_iff_exists_encode.mp hright
    exact ⟨⟨before, after⟩, rfl⟩

/-- Writing and reading are inverse to each other between pairs and stored forms, and the
stored forms are the bytes with exactly one separator, between well-formed texts. -/
theorem stored_form_bijective :
    (∀ pair : Pair, decode? pair.encode = some pair) ∧
      (∀ bytes (pair : Pair), decode? bytes = some pair ↔ pair.encode = bytes) ∧
      ∀ bytes, (decode? bytes).isSome ↔
        bytes.count 0xFF = 1 ∧ ∃ left right, bytes = left ++ 0xFF :: right ∧
          Utf8.WellFormed left ∧ Utf8.WellFormed right := by
  refine ⟨fun pair => decode?_eq_some_iff.mpr rfl, fun bytes pair => decode?_eq_some_iff, ?_⟩
  intro bytes
  rw [Option.isSome_iff_exists]
  calc
    (∃ pair, decode? bytes = some pair) ↔ ∃ pair : Pair, pair.encode = bytes :=
      exists_congr fun pair => decode?_eq_some_iff
    _ ↔ _ := exists_encode_iff

end MarkupSeeds.Pair
