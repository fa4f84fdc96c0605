import MarkupSeeds.Random.Generator

/-!
# Draws one after another

A draw takes as many words as it needs and leaves the rest to the next one.  Nothing in it
depends on how many draws are still to come.  The numbers drawn are below their bound: a carry is
only ever added where the high half of the product falls short of the largest number.
-/

namespace MarkupSeeds.Generator

/-- A single draw, together with the generator that is left. -/
def draw (n : Nat) (g : Generator) : (Nat × Nat) × Generator :=
  let first := g.below n
  let second := first.2.below n
  ((first.1, second.1), second.2)

variable {n : Nat}

@[simp]
theorem draws_zero (g : Generator) : g.draws n 0 = ([], g) := rfl

theorem draws_succ (count : Nat) (g : Generator) :
    g.draws n (count + 1) =
      ((g.draw n).1 :: ((g.draw n).2.draws n count).1, ((g.draw n).2.draws n count).2) := rfl

@[simp]
theorem length_draws (count : Nat) (g : Generator) : (g.draws n count).1.length = count := by
  induction count generalizing g with
  | zero => rfl
  | succ count ih => rw [draws_succ, List.length_cons, ih]

/-- Draws can be interrupted and taken up again with the generator that is left. -/
theorem draws_add (count more : Nat) (g : Generator) :
    g.draws n (count + more) =
      ((g.draws n count).1 ++ ((g.draws n count).2.draws n more).1,
        ((g.draws n count).2.draws n more).2) := by
  induction count generalizing g with
  | zero => rw [Nat.zero_add, draws_zero, List.nil_append]
  | succ count ih =>
      rw [Nat.add_right_comm, draws_succ, draws_succ, ih]
      rfl

/-- The first draws are the same, however many follow. -/
theorem prefix_draws {count larger : Nat} (hle : count ≤ larger) (g : Generator) :
    (g.draws n count).1 <+: (g.draws n larger).1 := by
  obtain ⟨more, rfl⟩ := Nat.exists_eq_add_of_le hle
  rw [draws_add]
  exact List.prefix_append _ _

/-! ## Below the bound -/

theorem high_lt {word : Nat} (hword : word < UInt32.size) (hpos : 0 < n) :
    word * n / UInt32.size < n := by
  apply Nat.div_lt_of_lt_mul
  exact Nat.mul_lt_mul_of_pos_right hword hpos

/-- The product of a word and `n` is at most `n` below the next multiple of `n`, so where its low
half is large its high half is not. -/
theorem high_succ_lt {word : Nat} (hword : word < UInt32.size)
    (hlow : UInt32.size - n < word * n % UInt32.size) : word * n / UInt32.size + 1 < n := by
  have hproduct : word * n ≤ (UInt32.size - 1) * n :=
    Nat.mul_le_mul_right n (Nat.le_pred_of_lt hword)
  have hhalves := Nat.div_add_mod (word * n) UInt32.size
  rw [UInt32.size] at hproduct hlow hhalves ⊢
  omega

/-- A number that is drawn is below the bound, also if a carry was added to it. -/
theorem below_lt (hpos : 0 < n) (g : Generator) : (g.below n).1 < n := by
  have hword := g.next.1.toNat_lt
  rw [below]
  dsimp only
  split
  · rename_i hlow
    split
    · exact high_succ_lt hword hlow
    · exact high_lt hword hpos
  · exact high_lt hword hpos

theorem draws_lt (hpos : 0 < n) (count : Nat) (g : Generator) :
    ∀ draw ∈ (g.draws n count).1, draw.1 < n ∧ draw.2 < n := by
  induction count generalizing g with
  | zero =>
      intro draw hmem
      cases hmem
  | succ count ih =>
      intro draw hmem
      rw [draws_succ, List.mem_cons] at hmem
      rcases hmem with rfl | hlater
      · exact ⟨below_lt hpos g, below_lt hpos _⟩
      · exact ih (g.draw n).2 draw hlater

end MarkupSeeds.Generator
