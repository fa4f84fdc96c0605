import MarkupSeeds.Fixture
import MarkupSeeds.Proofs.Seed.StoredForm
import MarkupSeeds.Proofs.Text.Lenient

/-!
# Reading fixtures

Fixtures are found on the disk as bytes, and nothing says that the bytes are text.  Markup is made
of ASCII characters, so reading a fixture leniently leaves it all there, and what is read can be
stored in a pair whatever the file holds.
-/

namespace MarkupSeeds

/-- A file is read as the text that its bytes stand for, if they are well formed.  If they are not,
replacement characters take the place of what is broken, and nothing else is changed: what is left
of the text without the characters beyond ASCII is what is left of the file without the bytes
beyond ASCII. -/
theorem Document.read_keeps_markup {d : Disk} {path : Path} {content : Bytes}
    (hcontent : d.read path = .ok content) :
    ∃ document, Document.read d path = .ok document ∧
      Utf8.ReadsLeniently content document.text.toList ∧
      (Utf8.WellFormed content → Utf8.encode document.text = content) ∧
      Utf8.encodeChars (Utf8.asciiChars document.text.toList) = Utf8.asciiBytes content ∧
      0xFF ∉ Utf8.encode document.text := by
  have hreads : Utf8.ReadsLeniently content (Utf8.lossy content).toList :=
    Utf8.readsLeniently_iff.mpr rfl
  refine ⟨⟨path.fileName, Utf8.lossy content⟩, ?_, hreads, ?_, hreads.encodeChars_asciiChars,
    Pair.separator_not_mem_encode _⟩
  · rw [Document.read, hcontent]
  · intro hwellFormed
    obtain ⟨text, rfl⟩ := Utf8.wellFormed_iff_exists_encode.mp hwellFormed
    rw [Utf8.lossy_encode]

/-- A page whose tags stand right behind a sequence that is cut short, half of a surrogate, an
overlong form and a byte that begins nothing. -/
def tornPage : Bytes :=
  Utf8.encode "<p>caf" ++ 0xE9 :: Utf8.encode "</p>" ++ 0xF0 :: 0x9F :: 0x98 :: Utf8.encode "<b>" ++
    0xED :: 0xA0 :: 0x80 :: Utf8.encode "</b>" ++ 0xC0 :: 0xAF :: Utf8.encode "<a>" ++
    0xFF :: Utf8.encode "é</a>" ++ [0xE2, 0x9C]

/-- A torn page and a whole one. -/
def tornPages : Disk where
  entries :=
    [(["torn.html"], .file tornPage),
     (["whole.html"], .file (Utf8.encode "<p>naïve ✓</p>"))]
  closed := by decide
  named := by decide
  workingDirectory := []

theorem Document.read_keeps_markup_of_torn_page :
    tornPages.read ⟨"torn.html"⟩ = .ok tornPage ∧
      tornPages.read ⟨"whole.html"⟩ = .ok (Utf8.encode "<p>naïve ✓</p>") ∧
      (∃ document, Document.read tornPages ⟨"torn.html"⟩ = .ok document ∧
        document.text =
          "<p>caf\uFFFD</p>\uFFFD<b>\uFFFD\uFFFD\uFFFD</b>\uFFFD\uFFFD<a>\uFFFDé</a>\uFFFD" ∧
        Utf8.encodeChars (Utf8.asciiChars document.text.toList) = Utf8.asciiBytes tornPage ∧
        0xFF ∉ Utf8.encode document.text) ∧
      ∃ document, Document.read tornPages ⟨"whole.html"⟩ = .ok document ∧
        Utf8.encode document.text = Utf8.encode "<p>naïve ✓</p>" := by
  have htorn : tornPages.read ⟨"torn.html"⟩ = .ok tornPage := by decide +kernel
  have hwhole : tornPages.read ⟨"whole.html"⟩ = .ok (Utf8.encode "<p>naïve ✓</p>") := by
    decide +kernel
  refine ⟨htorn, hwhole, ?_, ?_⟩
  · obtain ⟨document, hread, hreads, -, hascii, hseparator⟩ := read_keeps_markup htorn
    refine ⟨document, hread, ?_, hascii, hseparator⟩
    apply String.toList_injective
    rw [Utf8.readsLeniently_iff.mp hreads]
    decide +kernel
  · obtain ⟨document, hread, -, hencode, -⟩ := read_keeps_markup hwhole
    exact ⟨document, hread, hencode (Utf8.wellFormed_iff_exists_encode.mpr ⟨_, rfl⟩)⟩

end MarkupSeeds
