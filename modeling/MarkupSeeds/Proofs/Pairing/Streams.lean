import Mathlib.Order.MinMax
import MarkupSeeds.Proofs.Corpus.Members
import MarkupSeeds.Proofs.Random.Draws
import MarkupSeeds.Pairing

/-!
# The stream of pairs

Each strategy contributes its own pairs, one strategy after the other.  A snippet with a tag is
never equal to its spaced-out copy, so of a corpus of such snippets as many are paired with copies
as the limit admits.  Random pairs are at most as many as the draws, and their two sides are
different members of the corpus.
-/

namespace MarkupSeeds

/-! ## Spaced-out copies -/

/-- The characters that a spaced-out copy puts a space beside. -/
def isBracket (c : Char) : Bool := c = '<' || c = '>'

/-- A spaced-out copy is longer by one character for each bracket. -/
theorem length_spaceOut (text : String) :
    (spaceOut text).length = text.length + text.toList.countP isBracket := by
  have hchars : ∀ chars : List Char, (chars.flatMap fun c =>
      if c = '>' then ['>', ' '] else if c = '<' then [' ', '<'] else [c]).length =
        chars.length + chars.countP isBracket := by
    intro chars
    induction chars with
    | nil => rfl
    | cons c chars ih =>
        rw [List.flatMap_cons, List.length_append, ih, List.countP_cons, List.length_cons]
        by_cases hclose : c = '>'
        · simp [hclose, isBracket]
          omega
        by_cases hopen : c = '<'
        · simp [hopen, isBracket]
          omega
        · simp [hclose, hopen, isBracket]
          omega
  rw [spaceOut, String.length_ofList, hchars, String.length_toList]

theorem spaceOut_ne {text : String} (hopen : '<' ∈ text.toList) : spaceOut text ≠ text := by
  intro hsame
  have hlength := length_spaceOut text
  have hcount := List.countP_pos_iff.mpr ⟨'<', hopen, (by decide : isBracket '<' = true)⟩
  rw [hsame] at hlength
  omega

namespace Synthesizer

variable {s : Synthesizer} {c : Corpus} {g : Generator} {pair : Pair}

/-! ## The pairs of one strategy -/

theorem mem_mutated_iff :
    pair ∈ s.mutated c ↔ pair.before ∈ c.texts.take s.mutateLimit ∧
      pair.after = spaceOut pair.before ∧ pair.after ≠ pair.before := by
  obtain ⟨before, after⟩ := pair
  rw [mutated, List.mem_filterMap]
  constructor
  · rintro ⟨text, hmem, hpair⟩
    split at hpair
    · cases hpair
    · rename_i hne
      cases hpair
      exact ⟨hmem, rfl, hne⟩
  · rintro ⟨hmem, hafter, hne⟩
    dsimp only at hmem hafter hne
    refine ⟨before, hmem, ?_⟩
    rw [if_neg (hafter ▸ hne), ← hafter]

/-- No snippet is paired with its copy twice. -/
theorem nodup_mutated : (s.mutated c).Nodup := by
  apply List.Nodup.filterMap _ (c.nodup_texts.sublist (List.take_sublist _ _))
  intro text other pair htext hother
  split at htext
  · cases htext
  split at hother
  · cases hother
  · cases htext
    cases hother
    rfl

/-- Where every snippet has a tag, the limit alone decides how many are paired with copies. -/
theorem length_mutated (hopen : ∀ text ∈ c.texts, '<' ∈ text.toList) :
    (s.mutated c).length = min s.mutateLimit c.size := by
  have hall : ∀ text ∈ c.texts.take s.mutateLimit,
      (if spaceOut text = text then none else some (⟨text, spaceOut text⟩ : Pair)) =
        some ⟨text, spaceOut text⟩ := by
    intro text hmem
    exact if_neg (spaceOut_ne (hopen text (List.mem_of_mem_take hmem)))
  rw [mutated, List.filterMap_congr hall, List.filterMap_eq_map', List.length_map,
    List.length_take, Corpus.size]

theorem mem_pairAt? {draw : Nat × Nat} (hpair : c.pairAt? draw = some pair) :
    pair.before ∈ c.texts ∧ pair.after ∈ c.texts ∧ pair.before ≠ pair.after := by
  obtain ⟨before, hbefore, hrest⟩ := Option.bind_eq_some_iff.mp hpair
  obtain ⟨after, hafter, hboth⟩ := Option.bind_eq_some_iff.mp hrest
  split at hboth
  · cases hboth
  · rename_i hne
    cases hboth
    exact ⟨Corpus.mem_of_at? hbefore, Corpus.mem_of_at? hafter, hne⟩

theorem mem_crossed (hpair : pair ∈ (s.crossed c g).pairs) :
    pair.before ∈ c.texts ∧ pair.after ∈ c.texts ∧ pair.before ≠ pair.after := by
  obtain ⟨draw, -, hdraw⟩ := List.mem_filterMap.mp hpair
  exact mem_pairAt? hdraw

theorem length_crossed_le : (s.crossed c g).pairs.length ≤ min s.crossLimit (2 * c.size) := by
  calc
    (s.crossed c g).pairs.length ≤ (g.draws c.size (s.drawCount c)).1.length :=
      List.length_filterMap_le _ _
    _ = min s.crossLimit (Size.satMul c.size 2) := Generator.length_draws _ g
    _ ≤ min s.crossLimit (2 * c.size) := by
      rw [Nat.mul_comm]
      exact min_le_min_left _ (Nat.min_le_left ..)

/-- A corpus with a single snippet has no two different ones. -/
theorem crossed_eq_nil (hsingle : c.size ≤ 1) : (s.crossed c g).pairs = [] := by
  rw [List.eq_nil_iff_forall_not_mem]
  intro pair hpair
  obtain ⟨hbefore, hafter, hne⟩ := mem_crossed hpair
  obtain ⟨i, hi, hfirst⟩ := List.mem_iff_getElem.mp hbefore
  obtain ⟨j, hj, hsecond⟩ := List.mem_iff_getElem.mp hafter
  rw [Corpus.size] at hsingle
  have hsame : i = j := by omega
  subst hsame
  exact hne (hfirst.symm.trans hsecond)

/-! ## All strategies -/

/-- The pairs of a strategy. -/
def part (s : Synthesizer) (c : Corpus) (crossing : Crossing) : Strategy → List Pair
  | .mutated => s.mutated c
  | .crossed => crossing.pairs
  | .curated => curatedPairs

variable {crossing : Crossing}

/-- Pairs under one mark belong to it or not, all alike. -/
theorem filter_map_mk (strategy other : Strategy) (pairs : List Pair) :
    (pairs.map (other, ·)).filter (·.1 = strategy) =
      if other = strategy then pairs.map (other, ·) else [] := by
  split
  · rename_i heq
    exact List.filter_eq_self.mpr (by simp [heq])
  · rename_i hne
    exact List.filter_eq_nil_iff.mpr (by simp [hne])

theorem filter_stream (strategy : Strategy) :
    (s.stream c crossing).filter (·.1 = strategy) =
      (s.part c crossing strategy).map (strategy, ·) := by
  rw [stream, List.filter_append, List.filter_append, filter_map_mk, filter_map_mk, filter_map_mk]
  cases strategy <;> simp [part]

theorem mem_stream_iff {seed : Strategy × Pair} :
    seed ∈ s.stream c crossing ↔ seed.2 ∈ s.part c crossing seed.1 := by
  calc
    seed ∈ s.stream c crossing ↔
        seed ∈ (s.stream c crossing).filter (·.1 = seed.1) := by simp
    _ ↔ seed.2 ∈ s.part c crossing seed.1 := by
      rw [filter_stream, List.mem_map]
      exact ⟨fun ⟨pair, hpair, heq⟩ => heq ▸ hpair, fun hpair => ⟨seed.2, hpair, rfl⟩⟩

end Synthesizer

end MarkupSeeds
