import MarkupSeeds.Proofs.Pairing.Streams

/-!
# Random pairs

The positions that are drawn are positions of the corpus, and different positions hold different
texts.  So a draw is dropped for one reason only, that it came upon the same position twice, and
all other draws turn up as pairs in the order in which they were made.
-/

namespace MarkupSeeds

/-- Two positions of a corpus make a pair unless they are the same. -/
theorem Corpus.pairAt?_of_lt {c : Corpus} {draw : Nat × Nat} (hfirst : draw.1 < c.size)
    (hsecond : draw.2 < c.size) :
    (draw.1 = draw.2 ∧ c.pairAt? draw = none) ∨
      ∃ pair : Pair, draw.1 ≠ draw.2 ∧ c.pairAt? draw = some pair ∧
        c.at? draw.1 = some pair.before ∧ c.at? draw.2 = some pair.after := by
  obtain ⟨before, hbefore⟩ := exists_at? hfirst
  obtain ⟨after, hafter⟩ := exists_at? hsecond
  have hpair : c.pairAt? draw = if before = after then none else some ⟨before, after⟩ := by
    rw [pairAt?, hbefore, hafter]
    rfl
  by_cases htexts : before = after
  · rw [if_pos htexts] at hpair
    exact Or.inl ⟨eq_of_at? hbefore (htexts ▸ hafter), hpair⟩
  · rw [if_neg htexts] at hpair
    refine Or.inr ⟨⟨before, after⟩, ?_, hpair, hbefore, hafter⟩
    intro hsame
    rw [hsame, hafter, Option.some.injEq] at hbefore
    exact htexts hbefore.symm

/-- The pairs of some draws are what lies at the positions drawn, without the draws of a position
and itself. -/
theorem Corpus.map_filterMap_pairAt? {c : Corpus} {draws : List (Nat × Nat)}
    (hrange : ∀ draw ∈ draws, draw.1 < c.size ∧ draw.2 < c.size) :
    (draws.filterMap c.pairAt?).map (fun pair => (some pair.before, some pair.after)) =
      (draws.filter fun draw => draw.1 ≠ draw.2).map fun draw => (c.at? draw.1, c.at? draw.2) := by
  induction draws with
  | nil => rfl
  | cons draw draws ih =>
      obtain ⟨hdraw, hlater⟩ := List.forall_mem_cons.mp hrange
      rcases pairAt?_of_lt hdraw.1 hdraw.2 with ⟨hsame, hnone⟩ | ⟨pair, hne, hsome, hbefore, hafter⟩
      · rw [List.filterMap_cons_none hnone, List.filter_cons_of_neg (by simpa using hsame),
          ih hlater]
      · rw [List.filterMap_cons_some hsome, List.filter_cons_of_pos (by simpa using hne),
          List.map_cons, List.map_cons, ih hlater, hbefore, hafter]

namespace Synthesizer

variable {s : Synthesizer} {c : Corpus}

/-- Twice the number of snippets is far from the largest word. -/
theorem drawCount_eq (hsize : c.size < UInt32.size) :
    s.drawCount c = min s.crossLimit (2 * c.size) := by
  have hfits : c.size * 2 ≤ Size.largest := by
    rw [Size.largest]
    rw [UInt32.size] at hsize
    omega
  rw [drawCount, Size.satMul_eq_mul hfits, Nat.mul_comm]

theorem drawCount_of_empty (hempty : c.size = 0) : s.drawCount c = 0 := by
  rw [drawCount, hempty]
  exact Nat.min_zero _

theorem draws_in_range (s : Synthesizer) (c : Corpus) (g : Generator) :
    ∀ draw ∈ (g.draws c.size (s.drawCount c)).1, draw.1 < c.size ∧ draw.2 < c.size := by
  by_cases hempty : c.size = 0
  · rw [drawCount_of_empty hempty, Generator.draws_zero]
    intro draw hmem
    cases hmem
  · exact Generator.draws_lt (Nat.pos_of_ne_zero hempty) (s.drawCount c) g

/-- The random pairs follow the draws.  There are as many draws as the limit admits, two for each
snippet at most, and none from an empty corpus.  All positions drawn are positions of the corpus,
and the pairs are the texts at these positions, but for the draws of one position twice. -/
theorem crossed_follows_draws (s : Synthesizer) {c : Corpus} (hsize : c.size < UInt32.size)
    (g : Generator) :
    let count := min s.crossLimit (2 * c.size)
    let draws := (g.draws c.size count).1
    let crossing := s.crossed c g
    crossing.drawn = count ∧ draws.length = count ∧
      crossing.generator = (g.draws c.size count).2 ∧
      (c.size = 0 → crossing = ⟨0, [], g⟩) ∧
      (∀ draw ∈ draws, draw.1 < c.size ∧ draw.2 < c.size) ∧
      crossing.pairs.map (fun pair => (some pair.before, some pair.after)) =
        ((draws.filter fun draw => draw.1 ≠ draw.2).map fun draw =>
          (c.at? draw.1, c.at? draw.2)) ∧
      ∀ pair ∈ crossing.pairs,
        pair.before ∈ c.texts ∧ pair.after ∈ c.texts ∧ pair.before ≠ pair.after := by
  intro count draws crossing
  have hcount : s.drawCount c = count := drawCount_eq hsize
  have hcrossing : crossing = ⟨count, draws.filterMap c.pairAt?, (g.draws c.size count).2⟩ := by
    change s.crossed c g = _
    rw [crossed, hcount]
  have hrange := draws_in_range s c g
  rw [hcount] at hrange
  refine ⟨by rw [hcrossing], Generator.length_draws count g, by rw [hcrossing], ?_, hrange, ?_,
    fun pair hpair => mem_crossed hpair⟩
  · intro hempty
    have hnone : count = 0 := hcount.symm.trans (drawCount_of_empty hempty)
    rw [hcrossing]
    simp only [draws, hnone, Generator.draws_zero]
    rfl
  · rw [hcrossing]
    exact c.map_filterMap_pairAt? hrange

/-- A carry turns the first position into the second one, and a draw comes upon the last position
twice. -/
theorem crossed_follows_draws_of_three :
    let c := Corpus.ofList ["<p>alpha alpha</p>", "<p>beta beta</p>", "<p>gamma gamma</p>"]
    let words := [0x55555555, 0x80000000, 0, 0xFFFFFFFF, 0xFFFFFFFF, 0x55555555, 0, 0xFFFFFFFF]
    let g : Generator := ⟨⟨⟨0, 0, 0, 0⟩, ⟨0, 0, 0, 0⟩⟩, 0, words⟩
    let s : Synthesizer := ⟨0, 3⟩
    c.size < UInt32.size ∧ (g.draws c.size 3).1 = [(1, 0), (2, 2), (0, 2)] ∧
      (s.crossed c g).drawn = 3 ∧ (s.crossed c g).generator = { g with pending := [] } ∧
      (s.crossed c g).pairs.map (fun pair => (some pair.before, some pair.after)) =
        [(c.at? 1, c.at? 0), (c.at? 0, c.at? 2)] := by
  intro c words g s
  have hsize : c.size < UInt32.size := by decide +kernel
  have hdraws : g.draws c.size (min s.crossLimit (2 * c.size)) =
      ([(1, 0), (2, 2), (0, 2)], { g with pending := [] }) := by decide +kernel
  obtain ⟨hdrawn, -, hgenerator, -, -, hpairs, -⟩ := s.crossed_follows_draws hsize g
  rw [hdraws] at hgenerator hpairs
  exact ⟨hsize, congrArg Prod.fst hdraws, hdrawn, hgenerator, hpairs⟩

end Synthesizer

end MarkupSeeds
