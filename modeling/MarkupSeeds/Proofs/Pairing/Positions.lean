import MarkupSeeds.Proofs.Pairing.Crossing
import MarkupSeeds.Proofs.Text.Comparison

/-!
# Positions in a corpus

Which snippets come first, and which lie at the positions drawn, hangs on the order of the corpus.
The position of a snippet is the number of snippets whose bytes are smaller.  Since bytes compare
as code points do, counting the smaller texts of either order gives the same position, for texts
beyond ASCII too.
-/

namespace MarkupSeeds

namespace Corpus

variable {c : Corpus} {text : String}

/-- The number of members with smaller bytes. -/
def byteRank (c : Corpus) (text : String) : Nat :=
  c.texts.countP fun other => Utf8.compareBytes other text = .lt

theorem byteRank_eq_length : c.byteRank text = (c.texts.filter (· < text)).length := by
  simp only [byteRank, Utf8.compareBytes_eq_lt_iff, List.countP_eq_length_filter]

theorem at?_eq_some_iff_byteRank {index : Nat} :
    c.at? index = some text ↔ text ∈ c.texts ∧ c.byteRank text = index := by
  rw [at?, Sorted.getElem?_eq_some_iff c.ascending, byteRank_eq_length]

theorem byteRank_of_at? {index : Nat} (hat : c.at? index = some text) : c.byteRank text = index :=
  (at?_eq_some_iff_byteRank.mp hat).2

/-- The first members are those with few members of smaller bytes. -/
theorem mem_take_iff_byteRank {count : Nat} :
    text ∈ c.texts.take count ↔ text ∈ c.texts ∧ c.byteRank text < count := by
  calc
    text ∈ c.texts.take count ↔ ∃ index, index < count ∧ c.at? index = some text := by
      simp only [List.mem_iff_getElem?, List.getElem?_take, at?, Option.ite_none_right_eq_some]
    _ ↔ ∃ index, index < count ∧ text ∈ c.texts ∧ c.byteRank text = index := by
      simp only [at?_eq_some_iff_byteRank]
    _ ↔ text ∈ c.texts ∧ c.byteRank text < count := by
      constructor
      · rintro ⟨index, hlt, hmem, rfl⟩
        exact ⟨hmem, hlt⟩
      · rintro ⟨hmem, hlt⟩
        exact ⟨_, hlt, hmem, rfl⟩

/-- The pairs of some draws have the positions drawn, without the draws of a position and
itself. -/
theorem map_byteRank_filterMap_pairAt? {draws : List (Nat × Nat)}
    (hrange : ∀ draw ∈ draws, draw.1 < c.size ∧ draw.2 < c.size) :
    (draws.filterMap c.pairAt?).map (fun pair => (c.byteRank pair.before, c.byteRank pair.after)) =
      draws.filter fun draw => draw.1 ≠ draw.2 := by
  have hrank : ∀ index < c.size, (c.at? index).elim 0 c.byteRank = index := by
    intro index hlt
    obtain ⟨text, hat⟩ := exists_at? hlt
    rw [hat]
    exact byteRank_of_at? hat
  have hkept : ∀ draw ∈ draws.filter (fun draw => draw.1 ≠ draw.2),
      ((c.at? draw.1).elim 0 c.byteRank, (c.at? draw.2).elim 0 c.byteRank) = draw := by
    intro draw hmem
    obtain ⟨hfirst, hsecond⟩ := hrange draw (List.mem_of_mem_filter hmem)
    rw [hrank _ hfirst, hrank _ hsecond]
  have hpairs := congrArg
    (List.map fun sides => (sides.1.elim 0 c.byteRank, sides.2.elim 0 c.byteRank))
    (map_filterMap_pairAt? hrange)
  rw [List.map_map, List.map_map] at hpairs
  exact hpairs.trans ((List.map_congr_left hkept).trans (List.map_id _))

end Corpus

namespace Synthesizer

variable {s : Synthesizer} {c : Corpus}

/-- Copies are made in the order of the corpus. -/
theorem pairwise_mutated :
    (s.mutated c).Pairwise fun pair later => pair.before < later.before := by
  rw [mutated, List.pairwise_filterMap]
  refine (c.ascending.sublist (List.take_sublist _ _)).imp ?_
  intro text other hlt pair hpair later hlater
  split at hpair
  · cases hpair
  split at hlater
  · cases hlater
  · cases hpair
    cases hlater
    exact hlt

end Synthesizer

/-- Comparing the bytes of two texts comes to the same as comparing their code points: less, equal
or greater.  So the snippets paired with copies are those with the fewest smaller ones by their
bytes, in that order, and the random pairs lie at the positions drawn when positions are counted
by bytes. -/
theorem byte_order_is_code_point_order :
    (∀ left right : String,
      Utf8.compareBytes left right = Utf8.compareCodePoints left right) ∧
    ∀ (s : Synthesizer) (c : Corpus),
      (s.mutated c).Pairwise
        (fun pair later => Utf8.compareBytes pair.before later.before = .lt) ∧
      (∀ pair : Pair, pair ∈ s.mutated c ↔
        (pair.before ∈ c.texts ∧ c.byteRank pair.before < s.mutateLimit) ∧
          pair.after = spaceOut pair.before ∧ pair.after ≠ pair.before) ∧
      ∀ g : Generator,
        let draws := (g.draws c.size (s.drawCount c)).1
        let pairs := (s.crossed c g).pairs
        pairs.map (fun pair => (c.byteRank pair.before, c.byteRank pair.after)) =
            draws.filter (fun draw => draw.1 ≠ draw.2) ∧
          ∀ pair ∈ pairs, pair.before ∈ c.texts ∧ pair.after ∈ c.texts := by
  refine ⟨?_, ?_⟩
  · intro left right
    rw [Utf8.compareBytes_eq_compare, Utf8.compareCodePoints_eq_compare]
  intro s c
  refine ⟨?_, ?_, ?_⟩
  · simp only [Utf8.compareBytes_eq_lt_iff]
    exact Synthesizer.pairwise_mutated
  · intro pair
    rw [Synthesizer.mem_mutated_iff, Corpus.mem_take_iff_byteRank]
  · intro g draws pairs
    refine ⟨Corpus.map_byteRank_filterMap_pairAt? (s.draws_in_range c g), ?_⟩
    intro pair hpair
    obtain ⟨hbefore, hafter, -⟩ := Synthesizer.mem_crossed hpair
    exact ⟨hbefore, hafter⟩

/-- A face from beyond the first plane of characters comes after a wide tilde.  By its units of
sixteen bits it would come before. -/
theorem byte_order_is_code_point_order_of_planes :
    let wide := "<p>～～～～</p>"
    let face := "<p>😀😀😀😀</p>"
    let c := Corpus.ofList [face, wide]
    let s : Synthesizer := ⟨1, 1⟩
    let g : Generator := ⟨⟨⟨0, 0, 0, 0⟩, ⟨0, 0, 0, 0⟩⟩, 0, [0x80000000, 0]⟩
    Utf8.compareBytes wide face = Utf8.compareCodePoints wide face ∧
      Utf8.compareCodePoints wide face = .lt ∧
      ⟨wide, spaceOut wide⟩ ∈ s.mutated c ∧
      (s.crossed c g).pairs = [⟨face, wide⟩] ∧
      (s.crossed c g).pairs.map (fun pair => (c.byteRank pair.before, c.byteRank pair.after)) =
        [(1, 0)] ∧
      face ∈ c.texts ∧ wide ∈ c.texts := by
  intro wide face c s g
  obtain ⟨hcompare, hstreams⟩ := byte_order_is_code_point_order
  obtain ⟨-, hmutated, hcrossed⟩ := hstreams s c
  obtain ⟨hpositions, hmembers⟩ := hcrossed g
  have hfirst : wide ∈ c.texts ∧ c.byteRank wide < s.mutateLimit := by decide +kernel
  have hother : spaceOut wide ≠ wide := by decide +kernel
  have hpair : (s.crossed c g).pairs = [⟨face, wide⟩] := by decide +kernel
  have hdraws : (g.draws c.size (s.drawCount c)).1.filter (fun draw => draw.1 ≠ draw.2) =
      [(1, 0)] := by decide +kernel
  refine ⟨hcompare wide face, by decide +kernel, ?_, hpair, hpositions.trans hdraws, ?_⟩
  · exact (hmutated ⟨wide, spaceOut wide⟩).mpr ⟨hfirst, rfl, hother⟩
  · exact hmembers ⟨face, wide⟩ (by rw [hpair]; exact List.mem_singleton_self _)

end MarkupSeeds
