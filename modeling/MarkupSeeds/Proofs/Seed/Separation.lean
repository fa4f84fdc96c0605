import MarkupSeeds.Proofs.Disk.Listing
import MarkupSeeds.Proofs.Seed.Name

/-!
# Names keep seeds apart

Seeds share a name only if they share the strategy and the digest.  A name is an entry of the
corpus directory itself, never of a directory below or above it, and if fixtures are kept in the
same directory it does not turn up among them.
-/

namespace MarkupSeeds

/-- What a listing finds is named like a fixture. -/
theorem Fixtures.isFixtureName_of_mem_inDirectory {d : Disk} {dir : Path} {fixtures : Fixtures}
    {name : String} (hlisted : inDirectory d dir = .ok fixtures)
    (hmem : dir.join name ∈ fixtures.pending) : isFixtureName name := by
  rw [inDirectory] at hlisted
  split at hlisted
  · cases hlisted
    obtain ⟨listed, hlistedName, hjoin⟩ := List.mem_map.mp hmem
    rw [dir.join_injective hjoin] at hlistedName
    exact (Bool.and_eq_true_iff.mp (List.mem_filter.mp hlistedName).2).1
  · cases hlisted

/-- Names of seeds tell the strategy and the digest, and nothing else about the seed.  Each is the
mark of its strategy and of no other, followed by forty digits.  It is short enough for an entry
of a directory, and has no character in it that would make it anything else or give it an
extension.  So it leads straight into the corpus directory and never to a fixture. -/
theorem seed_names_stand_apart :
    (∀ (strategy other : Strategy) (bytes bytes' : Bytes),
      seedName strategy bytes = seedName other bytes' ↔
        strategy = other ∧ Sha1.digest bytes = Sha1.digest bytes') ∧
      ∀ (strategy : Strategy) (bytes : Bytes),
        let name := seedName strategy bytes
        (∃ digits : List Char, name.toList = strategy.mark.toList ++ digits ∧
          digits.length = 40 ∧ ∀ c ∈ digits, c ∈ "0123456789abcdef".toList) ∧
        (∀ other : Strategy, other.mark.toList <+: name.toList ↔ other = strategy) ∧
        name.utf8ByteSize ≤ 255 ∧
        '/' ∉ name.toList ∧ '\x00' ∉ name.toList ∧ '.' ∉ name.toList ∧
        isFixtureName name = false ∧
        ∀ (d : Disk) (dir : Path),
          (∀ parent location, d.Reaches dir parent → d.resolve (dir.join name) = .ok location →
            location = parent ++ [name]) ∧
          ∀ fixtures, Fixtures.inDirectory d dir = .ok fixtures →
            dir.join name ∉ fixtures.pending := by
  refine ⟨fun _ _ _ _ => seedName_eq_iff, ?_⟩
  intro strategy bytes name
  have hlacks : ∀ c : Char, (∀ strategy : Strategy, c ∉ strategy.mark.toList) → c ∉ Hex.digits →
      c ∉ name.toList :=
    fun c hmark hdigit => not_mem_seedName hmark hdigit strategy bytes
  have hfixture : ¬ isFixtureName name := not_isFixtureName_seedName strategy bytes
  refine ⟨?_, fun other => mark_prefix_seedName_iff, ?_, ?_, ?_, ?_, Bool.eq_false_iff.mpr hfixture,
    fun d dir => ⟨?_, ?_⟩⟩
  · exact ⟨_, toList_seedName strategy bytes, length_hexDigest bytes,
      fun c hmem => Hex.mem_digits_of_mem_encodeChars hmem⟩
  · exact Nat.not_lt.mp (seedName_short strategy bytes)
  · exact slash_not_mem_seedName strategy bytes
  · exact hlacks '\x00' (by intro strategy; cases strategy <;> decide) (by decide)
  · exact dot_not_mem_seedName strategy bytes
  · intro parent location hreaches hresolve
    exact Disk.eq_of_resolve_join hreaches (not_isStep_seedName strategy bytes) hresolve
  · intro fixtures hlisted hmem
    exact hfixture (Fixtures.isFixtureName_of_mem_inDirectory hlisted hmem)

/-- The seed of no bytes at all, in a directory with a page. -/
def emptySeedDisk : Disk where
  entries :=
    [(["c"], .directory), (["c", "a.html"], .file (some [])),
     (["c", seedName .crossed []], .file (some []))]
  closed := by decide +kernel
  named := by decide +kernel
  workingDirectory := []

theorem seed_names_stand_apart_of_empty :
    seedName .crossed [] = "fixture_pair_da39a3ee5e6b4b0d3255bfef95601890afd80709" ∧
      seedName .crossed [] ≠ seedName .curated [] ∧
      emptySeedDisk.resolve ((⟨"c"⟩ : Path).join (seedName .crossed [])) =
        .ok (["c"] ++ [seedName .crossed []]) ∧
      Fixtures.inDirectory emptySeedDisk ⟨"c"⟩ = .ok ⟨[⟨"c/a.html"⟩]⟩ ∧
      (⟨"c"⟩ : Path).join (seedName .crossed []) ∉ [(⟨"c/a.html"⟩ : Path)] := by
  have hlisted : Fixtures.inDirectory emptySeedDisk ⟨"c"⟩ = .ok ⟨[⟨"c/a.html"⟩]⟩ := by
    decide +kernel
  have hreaches : emptySeedDisk.Reaches ⟨"c"⟩ ["c"] := by
    rw [Disk.Reaches]
    decide +kernel
  have hresolve : (emptySeedDisk.resolve ((⟨"c"⟩ : Path).join (seedName .crossed []))).isOk := by
    decide +kernel
  obtain ⟨hnames, hform⟩ := seed_names_stand_apart
  obtain ⟨-, -, -, -, -, -, -, hdisk⟩ := hform .crossed []
  obtain ⟨hlocation, hpending⟩ := hdisk emptySeedDisk ⟨"c"⟩
  refine ⟨by decide +kernel, ?_, ?_, hlisted, hpending _ hlisted⟩
  · intro hsame
    cases ((hnames _ _ _ _).mp hsame).1
  · cases hfound : emptySeedDisk.resolve ((⟨"c"⟩ : Path).join (seedName .crossed [])) with
    | error fault =>
        rw [hfound] at hresolve
        cases hresolve
    | ok location => rw [hlocation _ _ hreaches hfound]

end MarkupSeeds
