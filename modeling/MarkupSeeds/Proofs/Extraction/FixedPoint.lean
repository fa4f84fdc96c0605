import MarkupSeeds.Proofs.Extraction.Budget
import MarkupSeeds.Proofs.Markup.Locality
import MarkupSeeds.Proofs.Run.Texts

/-!
# Snippets of snippets

Nothing behind the end of a span has a part in finding it.  A snippet that is scanned
again for its shape is therefore found whole and alone, and a corpus whose snippets are
extracted from once more loses none of them.
-/

namespace MarkupSeeds

open Markup

theorem IsSlice.self (text : String) : IsSlice text ⟨0, (Utf8.encode text).length⟩ text := by
  refine ⟨"", "", ?_, rfl, ?_⟩
  · rw [String.empty_append, String.append_empty]
  · rw [String.empty_append]

namespace Extractor

section Positions

variable {e : Extractor} {shape : Shape}

/-- A candidate of a text is a candidate of every piece of the text that holds it. -/
theorem Candidate.of_append (hlabels : ∀ name ∈ shape.labels, IsLabel name)
    {front piece rest : Bytes} {start stop : Nat} {tag : Opening}
    (hcandidate : Candidate e shape none (front ++ (piece ++ rest)) (front.length + start) tag
      (front.length + stop))
    (hstop : stop ≤ piece.length) : Candidate e shape none piece start tag stop := by
  have hle := hcandidate.le_stop hlabels
  have hbody : front.length + start + 1 + tag.length = front.length + (start + 1 + tag.length) := by
    omega
  have hopens := (openingAt?_append_iff hlabels (by omega)).mp hcandidate.opens
  cases hkind : shape.kind with
  | void =>
      have hend := hcandidate.stop_eq_of_void hkind
      exact .of_void hopens hkind (by omega)
  | paired =>
      cases hnesting : e.nesting with
      | nearest =>
          have hfirst := hcandidate.firstOccurs_of_nearest hlabels hkind hnesting
          rw [hbody] at hfirst
          exact .of_firstOccurs hlabels hopens hkind hnesting (hfirst.of_append hstop)
      | balanced =>
          have hbalances := hcandidate.occurs_balances hlabels hkind hnesting
          rw [hbody, occurs_append_iff hstop] at hbalances
          exact .of_balances hlabels hopens hkind hnesting hbalances

end Positions

/-- A span that is cut out and scanned again is found whole and alone.  The limit on the
search counts from the start of the span, so it spares the span as it did in the text. -/
theorem spans_snippetAt {e : Extractor} {shape : Shape} {text : String} {span : Span}
    (hlabels : ∀ name ∈ shape.labels, IsLabel name)
    (hmem : span ∈ e.spans shape (Utf8.encode text)) :
    e.spans shape (Utf8.encode (snippetAt text span)) =
      [⟨0, (Utf8.encode (snippetAt text span)).length⟩] := by
  obtain ⟨-, tag, hlimited⟩ := (course_spans hlabels).exists_candidate span hmem
  have hfinds := finds_snippetAt hlabels hmem
  generalize snippetAt text span = snippet at hfinds ⊢
  have hlength := hfinds.slice.stop_eq
  obtain ⟨front, rest, htext, hstart, -⟩ := hfinds.slice
  obtain ⟨hcandidate, hlimit⟩ := candidate_some_budget_iff.mp hlimited
  rw [htext, Utf8.encode_append, Utf8.encode_append, List.append_assoc, hlength,
    ← hstart] at hcandidate
  have hwhole : Candidate e shape none (Utf8.encode snippet) 0 tag (Utf8.encode snippet).length :=
    Candidate.of_append hlabels hcandidate (Nat.le_refl _)
  have hagain : Candidate e shape (some e.budget) (Utf8.encode snippet) 0 tag
      (Utf8.encode snippet).length := by
    refine candidate_some_budget_iff.mpr ⟨hwhole, fun hkind hnesting => ?_⟩
    have hle := hlimit hkind hnesting
    rw [budget, Size.satMul, Size.satAdd] at hle ⊢
    omega
  have hkeeps : e.keepsSpan (Utf8.encode snippet) ⟨0, (Utf8.encode snippet).length⟩ = true :=
    ((IsSlice.self snippet).keepsSpan_iff e).mpr ⟨hfinds.long, hfinds.short⟩
  rcases (course_spans hlabels).of_candidate hagain with
    ⟨-, others, hspans, hothers⟩ | ⟨hrejects, -⟩
  · rw [hspans, hothers.eq_nil (Nat.le_refl _)]
  · rw [hkeeps] at hrejects
    cases hrejects

theorem snippets_of_mem_snippets {e : Extractor} {shape : Shape} {text snippet : String}
    (hlabels : ∀ name ∈ shape.labels, IsLabel name) (hmem : snippet ∈ e.snippets shape text) :
    e.snippets shape snippet = [snippet] := by
  rw [snippets_eq_map] at hmem
  obtain ⟨span, hspan, rfl⟩ := List.mem_map.mp hmem
  rw [snippets_eq_map, spans_snippetAt hlabels hspan, List.map_singleton,
    (IsSlice.self _).snippetAt_eq]

theorem mem_extract_self {e : Extractor} {text snippet : String}
    (hmem : snippet ∈ e.extract text) : snippet ∈ e.extract snippet := by
  obtain ⟨shape, hshape, hsnippet⟩ := mem_extract_iff.mp hmem
  refine mem_extract_iff.mpr ⟨shape, hshape, ?_⟩
  rw [snippets_of_mem_snippets (isLabel_of_mem_shapes hshape) hsnippet]
  exact List.mem_singleton_self snippet

/-- Every snippet is a fixed point of the scan that found it, so that it occurs among its
own snippets.  Documents that hold the snippets of a corpus yield all of the corpus again. -/
theorem snippets_are_fixed_points (e : Extractor) :
    (∀ shape ∈ shapes, ∀ text, ∀ snippet ∈ e.snippets shape text,
        e.snippets shape snippet = [snippet]) ∧
      (∀ text, ∀ snippet ∈ e.extract text, snippet ∈ e.extract snippet) ∧
      ∀ (fixtures others : List Fixture) (report report' : Report),
        (∀ snippet ∈ (Pool.ofFixtures e fixtures report).corpus.texts,
          snippet ∈ readTexts others) →
        ∀ snippet ∈ (Pool.ofFixtures e fixtures report).corpus.texts,
          snippet ∈ (Pool.ofFixtures e others report').corpus.texts := by
  refine ⟨?_, ?_, ?_⟩
  · intro shape hshape text snippet hmem
    exact snippets_of_mem_snippets (isLabel_of_mem_shapes hshape) hmem
  · intro text snippet hmem
    exact mem_extract_self hmem
  · intro fixtures others report report' hothers snippet hmem
    obtain ⟨text, -, hsnippet⟩ := Pool.mem_ofFixtures.mp hmem
    exact Pool.mem_ofFixtures.mpr ⟨snippet, hothers snippet hmem, mem_extract_self hsnippet⟩

/-- The nearest rule passes over a closing tag with a blank and leaves out the last one. -/
theorem snippets_are_fixed_points_of_divisions :
    let e : Extractor := ⟨60, .nearest⟩
    let divisions : Shape := .paired ["div"]
    let text := "<<DIV a='é'>one <div>two</div > three</div> four</div>"
    let snippet := "<DIV a='é'>one <div>two</div > three</div>"
    let page := fun text : String => (⟨⟨"page.html"⟩, .ok ⟨"page.html", text⟩⟩ : Fixture)
    divisions ∈ shapes ∧ snippet ∈ e.snippets divisions text ∧
      e.snippets divisions snippet = [snippet] ∧ snippet ∈ e.extract snippet ∧
      snippet ∈ (Pool.ofFixtures e [page text] {}).corpus.texts ∧
      snippet ∈ (Pool.ofFixtures e [page snippet] {}).corpus.texts := by
  intro e divisions text snippet page
  obtain ⟨hscan, hextract, hpool⟩ := snippets_are_fixed_points e
  have hshape : divisions ∈ shapes := by decide
  have hmem : snippet ∈ e.snippets divisions text := by decide +kernel
  have hcorpus : (Pool.ofFixtures e [page text] {}).corpus.texts = [snippet] := by decide +kernel
  have hpooled : snippet ∈ (Pool.ofFixtures e [page text] {}).corpus.texts :=
    hcorpus ▸ List.mem_singleton_self snippet
  have hread : ∀ piece ∈ (Pool.ofFixtures e [page text] {}).corpus.texts,
      piece ∈ readTexts [page snippet] := by
    intro piece hpiece
    rw [hcorpus] at hpiece
    exact hpiece
  exact ⟨hshape, hmem, hscan divisions hshape text snippet hmem,
    hextract text snippet (mem_extract_iff.mpr ⟨divisions, hshape, hmem⟩), hpooled,
    hpool [page text] [page snippet] {} {} hread snippet hpooled⟩

end Extractor

end MarkupSeeds
