import MarkupSeeds.Proofs.Pairing.Streams
import MarkupSeeds.Proofs.Random.Draws
import MarkupSeeds.Proofs.Run.Steps

/-!
# Raising the limits

The limits decide how far the streams of pairs go and nothing else.  Pairing snippets with their
copies takes nothing from the generator, and no draw looks ahead at the number of draws behind
it.  With larger limits the streams go on where they ended before, so a run hands over all the
seeds that it handed over before, in the same order.
-/

namespace MarkupSeeds

namespace Synthesizer

section

variable {s larger : Synthesizer} (c : Corpus) (g : Generator)

theorem prefix_mutated (hmutate : s.mutateLimit ≤ larger.mutateLimit) :
    s.mutated c <+: larger.mutated c :=
  (List.take_prefix_take_left hmutate).filterMap _

theorem drawCount_mono (hcross : s.crossLimit ≤ larger.crossLimit) :
    s.drawCount c ≤ larger.drawCount c :=
  min_le_min_right _ hcross

theorem prefix_crossed (hcross : s.crossLimit ≤ larger.crossLimit) :
    (s.crossed c g).pairs <+: (larger.crossed c g).pairs :=
  (Generator.prefix_draws (drawCount_mono c hcross) g).filterMap _

/-- Each strategy goes on where it ended, and so the stream as a whole loses nothing. -/
theorem synthesize_sublist (hmutate : s.mutateLimit ≤ larger.mutateLimit)
    (hcross : s.crossLimit ≤ larger.crossLimit) :
    (s.synthesize c g).Sublist (larger.synthesize c g) := by
  have hmutated := (prefix_mutated c hmutate).sublist.map (Strategy.mutated, ·)
  have hcrossed := (prefix_crossed c g hcross).sublist.map (Strategy.crossed, ·)
  exact (hmutated.append hcrossed).append (List.Sublist.refl _)

/-- The random pairs do not depend on how many snippets are paired with copies. -/
theorem filter_synthesize_crossed (mutateLimit : Nat) :
    ({ s with mutateLimit := mutateLimit }.synthesize c g).filter (·.1 = Strategy.crossed) =
      (s.synthesize c g).filter (·.1 = Strategy.crossed) := by
  rw [synthesize, synthesize, filter_stream, filter_stream]
  rfl

end

end Synthesizer

/-- A configuration with other limits. -/
def Config.withLimits (config : Config) (s : Synthesizer) : Config :=
  { config with mutateLimit := s.mutateLimit, crossLimit := s.crossLimit }

/-- The limits of a run have no part in its corpus. -/
theorem Config.seeds_withLimits (config : Config) (s : Synthesizer) (d : Disk) :
    (config.withLimits s).seeds d =
      match collect (config.writer d).2 config {} with
      | .ok pool => s.synthesize pool.corpus config.generator
      | .error _ => [] := rfl

/-- Larger limits only add pairs.  The snippets that are paired with copies and those that are
drawn at random go on where they ended with smaller limits, and the random ones are the same
whatever the limit on copies is.  So the stream as a whole keeps all its pairs in their order,
and a run all its seeds. -/
theorem larger_limits_only_add_pairs {s larger : Synthesizer} (c : Corpus) (g : Generator)
    (hmutate : s.mutateLimit ≤ larger.mutateLimit) (hcross : s.crossLimit ≤ larger.crossLimit) :
    s.mutated c <+: larger.mutated c ∧
      (s.crossed c g).pairs <+: (larger.crossed c g).pairs ∧
      (∀ mutateLimit,
        ({ s with mutateLimit := mutateLimit }.synthesize c g).filter (·.1 = Strategy.crossed) =
          (s.synthesize c g).filter (·.1 = Strategy.crossed)) ∧
      (s.synthesize c g).Sublist (larger.synthesize c g) ∧
      ∀ (config : Config) (d : Disk),
        ((config.withLimits s).seeds d).Sublist ((config.withLimits larger).seeds d) := by
  refine ⟨Synthesizer.prefix_mutated c hmutate, Synthesizer.prefix_crossed c g hcross,
    Synthesizer.filter_synthesize_crossed c g,
    Synthesizer.synthesize_sublist c g hmutate hcross, ?_⟩
  intro config d
  rw [Config.seeds_withLimits, Config.seeds_withLimits]
  split
  · rename_i pool hcollect
    exact Synthesizer.synthesize_sublist pool.corpus _ hmutate hcross
  · exact List.Sublist.refl _

/-- Three snippets, of which the limits admit one and then two. -/
theorem larger_limits_only_add_pairs_of_three :
    let c := Corpus.ofList ["<p>alpha alpha</p>", "<p>beta beta</p>", "<p>gamma gamma</p>"]
    let g := Generator.ofSeed 42
    let s : Synthesizer := ⟨1, 2⟩
    let larger : Synthesizer := ⟨2, 4⟩
    s.mutateLimit ≤ larger.mutateLimit ∧ s.crossLimit ≤ larger.crossLimit ∧
      (s.crossed c g).pairs.length = 2 ∧ (larger.crossed c g).pairs.length = 4 ∧
      (s.synthesize c g).Sublist (larger.synthesize c g) := by
  intro c g s larger
  have hmutate : s.mutateLimit ≤ larger.mutateLimit := by decide
  have hcross : s.crossLimit ≤ larger.crossLimit := by decide
  obtain ⟨-, -, -, hsublist, -⟩ := larger_limits_only_add_pairs c g hmutate hcross
  exact ⟨hmutate, hcross, by decide +kernel, by decide +kernel, hsublist⟩

end MarkupSeeds
