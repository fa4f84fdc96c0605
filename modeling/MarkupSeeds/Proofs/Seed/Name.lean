import MarkupSeeds.Proofs.Fixture.Name
import MarkupSeeds.Seed.Name

/-!
# What names of seeds are made of

The name of a seed is a mark and forty hexadecimal digits.  It can therefore be the name
of an entry of any directory: it is no step of a path and well within the limit.  It is never
taken for the name of a fixture.
-/

namespace MarkupSeeds

namespace Hex

def digits : List Char := "0123456789abcdef".toList

theorem digit_mem_digits {n : Nat} (hn : n < 16) : digit n ∈ digits := by
  have hall : ∀ k : Fin 16, digit k ∈ digits := by decide
  exact hall ⟨n, hn⟩

theorem mem_digits_of_mem_encodeChars {bytes : Bytes} {c : Char} (hmem : c ∈ encodeChars bytes) :
    c ∈ digits := by
  obtain ⟨b, -, hpair⟩ := List.mem_flatMap.mp hmem
  have hb := b.toNat_lt
  rcases List.mem_cons.mp hpair with rfl | hlow
  · exact digit_mem_digits (by omega)
  · rw [List.mem_singleton.mp hlow]
    exact digit_mem_digits (by omega)

theorem length_encodeChars (bytes : Bytes) : (encodeChars bytes).length = 2 * bytes.length := by
  induction bytes with
  | nil => rfl
  | cons b bytes ih =>
      rw [encodeChars, List.flatMap_cons, List.length_append, ← encodeChars, ih, List.length_cons]
      simp only [pair, List.length_cons, List.length_nil]
      omega

theorem digit_inj {m n : Nat} (hm : m < 16) (hn : n < 16) (heq : digit m = digit n) : m = n := by
  have hall : ∀ k l : Fin 16, digit k = digit l → k = l := by decide
  exact congrArg Fin.val (hall ⟨m, hm⟩ ⟨n, hn⟩ heq)

theorem pair_injective : Function.Injective pair := by
  intro b c heq
  have hb := b.toNat_lt
  have hc := c.toNat_lt
  obtain ⟨hhigh, hlow⟩ := List.cons.inj heq
  have hdiv : b.toNat / 16 = c.toNat / 16 := digit_inj (by omega) (by omega) hhigh
  have hmod : b.toNat % 16 = c.toNat % 16 :=
    digit_inj (by omega) (by omega) (List.singleton_inj.mp hlow)
  apply UInt8.toNat_inj.mp
  omega

/-- The digits tell the bytes, as each byte takes two of them. -/
theorem encodeChars_injective : Function.Injective encodeChars := by
  intro left right heq
  induction left generalizing right with
  | nil =>
      cases right with
      | nil => rfl
      | cons c right => cases heq
  | cons b left ih =>
      cases right with
      | nil => cases heq
      | cons c right =>
          obtain ⟨hfirst, hrest⟩ := List.append_inj heq rfl
          rw [pair_injective hfirst, ih hrest]

end Hex

theorem toList_seedName (strategy : Strategy) (bytes : Bytes) :
    (seedName strategy bytes).toList =
      strategy.mark.toList ++ Hex.encodeChars (Sha1.digest bytes) := by
  rw [seedName, String.toList_append, Hex.encode, String.toList_ofList]

theorem length_hexDigest (bytes : Bytes) : (Hex.encodeChars (Sha1.digest bytes)).length = 40 := by
  rw [Hex.length_encodeChars, Sha1.length_digest]

/-- A name tells the strategy: the digest behind the mark has always the same length. -/
theorem strategy_eq_of_seedName_eq {strategy other : Strategy} {bytes bytes' : Bytes}
    (hname : seedName strategy bytes = seedName other bytes') : strategy = other := by
  have hchars := congrArg String.toList hname
  rw [toList_seedName, toList_seedName] at hchars
  have hlength := (length_hexDigest bytes).trans (length_hexDigest bytes').symm
  have hmark := (List.append_inj' hchars hlength).1
  revert hmark
  cases strategy <;> cases other <;> decide

/-- Names are the same for the same strategy and digest only. -/
theorem seedName_eq_iff {strategy other : Strategy} {bytes bytes' : Bytes} :
    seedName strategy bytes = seedName other bytes' ↔
      strategy = other ∧ Sha1.digest bytes = Sha1.digest bytes' := by
  constructor
  · intro hname
    obtain rfl := strategy_eq_of_seedName_eq hname
    have hchars := congrArg String.toList hname
    rw [toList_seedName, toList_seedName] at hchars
    exact ⟨rfl, Hex.encodeChars_injective (List.append_cancel_left hchars)⟩
  · rintro ⟨rfl, hdigest⟩
    rw [seedName, seedName, hdigest]

/-- No mark is the beginning of another, so a name begins with one mark only. -/
theorem mark_prefix_seedName_iff {strategy other : Strategy} {bytes : Bytes} :
    other.mark.toList <+: (seedName strategy bytes).toList ↔ other = strategy := by
  have hmarks : ∀ left right : Strategy, left.mark.toList <+: right.mark.toList → left = right := by
    intro left right
    cases left <;> cases right <;> decide
  rw [toList_seedName]
  constructor
  · intro hbegins
    have hown := List.prefix_append strategy.mark.toList (Hex.encodeChars (Sha1.digest bytes))
    rcases List.prefix_or_prefix_of_prefix hbegins hown with hshorter | hlonger
    · exact hmarks _ _ hshorter
    · exact (hmarks _ _ hlonger).symm
  · rintro rfl
    exact List.prefix_append _ _

/-- What is in no mark and is no digit is in no name. -/
theorem not_mem_seedName {c : Char} (hmark : ∀ strategy : Strategy, c ∉ strategy.mark.toList)
    (hdigit : c ∉ Hex.digits) (strategy : Strategy) (bytes : Bytes) :
    c ∉ (seedName strategy bytes).toList := by
  rw [toList_seedName, List.mem_append, not_or]
  exact ⟨hmark strategy, fun hmem => hdigit (Hex.mem_digits_of_mem_encodeChars hmem)⟩

theorem slash_not_mem_seedName (strategy : Strategy) (bytes : Bytes) :
    '/' ∉ (seedName strategy bytes).toList :=
  not_mem_seedName (fun strategy => by cases strategy <;> decide) (by decide) strategy bytes

theorem dot_not_mem_seedName (strategy : Strategy) (bytes : Bytes) :
    '.' ∉ (seedName strategy bytes).toList :=
  not_mem_seedName (fun strategy => by cases strategy <;> decide) (by decide) strategy bytes

/-- No seed is taken for a fixture. -/
theorem not_isFixtureName_seedName (strategy : Strategy) (bytes : Bytes) :
    ¬ isFixtureName (seedName strategy bytes) :=
  not_isFixtureName_of_not_mem (dot_not_mem_seedName strategy bytes)

/-- The name of a seed is the name of an entry. -/
theorem not_isStep_seedName (strategy : Strategy) (bytes : Bytes) :
    ¬ Disk.isStep (seedName strategy bytes) := by
  have hlength : 40 ≤ (seedName strategy bytes).toList.length := by
    rw [toList_seedName, List.length_append, length_hexDigest]
    omega
  have hne : ∀ short : String, short.toList.length < 40 → seedName strategy bytes ≠ short := by
    rintro short hshort rfl
    omega
  exact Disk.isName_iff_not_isStep.mp ⟨slash_not_mem_seedName strategy bytes,
    hne "" (by decide), hne "." (by decide), hne ".." (by decide)⟩

theorem utf8ByteSize_ofList_of_digits {chars : List Char} (hdigits : ∀ c ∈ chars, c ∈ Hex.digits) :
    (String.ofList chars).utf8ByteSize = chars.length := by
  have hall : Hex.digits.all (fun c => c.utf8Size = 1) := by decide
  induction chars with
  | nil => rfl
  | cons c chars ih =>
      obtain ⟨hfirst, hrest⟩ := List.forall_mem_cons.mp hdigits
      have hsize : c.utf8Size = 1 := of_decide_eq_true (List.all_eq_true.mp hall c hfirst)
      rw [String.ofList_cons, String.utf8ByteSize_append, String.utf8ByteSize_singleton, hsize,
        ih hrest, List.length_cons, Nat.add_comm]

theorem seedName_short (strategy : Strategy) (bytes : Bytes) :
    ¬ Path.nameLimit < (seedName strategy bytes).utf8ByteSize := by
  have hmark : strategy.mark.utf8ByteSize ≤ 13 := by cases strategy <;> decide
  rw [seedName, Hex.encode, String.utf8ByteSize_append,
    utf8ByteSize_ofList_of_digits fun c => Hex.mem_digits_of_mem_encodeChars, length_hexDigest,
    Path.nameLimit]
  omega

end MarkupSeeds
