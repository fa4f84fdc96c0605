import Mathlib.Data.List.Basic
import MarkupSeeds.Size

/-!
# Numerals

The texts that are read as a word: decimal digits, with as many zeros in front as one likes and
perhaps a plus sign, whose value is a word.
-/

namespace MarkupSeeds.Size

/-- Digits with the value `n`. -/
structure IsDecimal (digits : List Char) (n : Nat) : Prop where
  ne_nil : digits ≠ []
  isDigit : ∀ c ∈ digits, c.isDigit
  value : Nat.ofDigitChars 10 digits 0 = n

/-- A text is a numeral of `n`. -/
def Spells (text : String) (n : Nat) : Prop :=
  IsDecimal text.toList n ∨ ∃ digits, text.toList = '+' :: digits ∧ IsDecimal digits n

variable {text : String} {digits : List Char} {n : Nat}

/-! ## Digits -/

theorem digit?_eq (c : Char) :
    digit? c = if c.isDigit then some (c.toNat - '0'.toNat) else none := by
  have hdigit : ('0' ≤ c ∧ c ≤ '9') ↔ c.isDigit := by
    rw [Char.isDigit, Bool.and_eq_true, decide_eq_true_iff, decide_eq_true_iff]
    rfl
  rw [digit?]
  exact if_congr hdigit rfl rfl

theorem digits?_eq (value : Nat) (digits : List Char) :
    digits? value digits =
      if digits.all Char.isDigit then some (Nat.ofDigitChars 10 digits value) else none := by
  induction digits generalizing value with
  | nil => rfl
  | cons c rest ih =>
      rw [digits?, digit?_eq, List.all_cons]
      cases c.isDigit with
      | false => rfl
      | true =>
          rw [if_pos rfl, Option.bind_some, ih, Nat.ofDigitChars_cons, Nat.mul_comm value,
            Bool.true_and]

theorem isDecimal_iff : IsDecimal digits n ↔ digits ≠ [] ∧ digits? 0 digits = some n := by
  rw [digits?_eq, Option.ite_none_right_eq_some, Option.some_inj, List.all_eq_true]
  exact ⟨fun h => ⟨h.ne_nil, h.isDigit, h.value⟩,
    fun ⟨hne, hdigit, hvalue⟩ => ⟨hne, hdigit, hvalue⟩⟩

theorem IsDecimal.head_ne (hdecimal : IsDecimal digits n) {c : Char} (hc : c.isDigit = false) :
    digits.head? ≠ some c := by
  intro hhead
  have hdigit := hdecimal.isDigit c (List.mem_of_head? hhead)
  rw [hc] at hdigit
  cases hdigit

/-! ## Texts -/

theorem ofText?_of_head_ne (hhead : text.toList.head? ≠ some '+') :
    ofText? text = some n ↔ IsDecimal text.toList n ∧ n ≤ largest := by
  rw [ofText?, isDecimal_iff, and_assoc]
  split
  · rename_i heq
    rw [heq] at hhead
    cases hhead rfl
  · rw [Option.ite_none_left_eq_some, List.isEmpty_iff, Option.filter_eq_some_iff,
      decide_eq_true_iff]

theorem ofText?_of_plus (hplus : text.toList = '+' :: digits) :
    ofText? text = some n ↔ IsDecimal digits n ∧ n ≤ largest := by
  rw [ofText?, hplus, isDecimal_iff, and_assoc, Option.ite_none_left_eq_some, List.isEmpty_iff,
    Option.filter_eq_some_iff, decide_eq_true_iff]
  rfl

/-- What is read is a numeral, and every numeral of a word is read. -/
theorem ofText?_eq_some_iff : ofText? text = some n ↔ Spells text n ∧ n ≤ largest := by
  by_cases hplus : ∃ digits, text.toList = '+' :: digits
  · obtain ⟨digits, hdigits⟩ := hplus
    have hsign : ¬ IsDecimal text.toList n := fun h =>
      h.head_ne (c := '+') (by decide) (by rw [hdigits]; rfl)
    rw [ofText?_of_plus hdigits, Spells, or_iff_right hsign]
    simp only [hdigits, List.cons.injEq, true_and, exists_eq_left']
  · have hhead : text.toList.head? ≠ some '+' := fun h =>
      hplus ⟨text.toList.tail, List.eq_cons_of_mem_head? h⟩
    have hsign : ¬ ∃ digits, text.toList = '+' :: digits ∧ IsDecimal digits n :=
      fun ⟨digits, hdigits, _⟩ => hplus ⟨digits, hdigits⟩
    rw [ofText?_of_head_ne hhead, Spells, or_iff_left hsign]

/-- A numeral cannot be taken for an option. -/
theorem Spells.head_ne_dash (hspells : Spells text n) : text.toList.head? ≠ some '-' := by
  obtain hdecimal | ⟨digits, hdigits, -⟩ := hspells
  · exact hdecimal.head_ne (by decide)
  · rw [hdigits]
    exact of_decide_eq_false rfl

/-- Numerals as they are printed. -/
theorem spells_toString (n : Nat) : Spells (toString n) n := by
  refine Or.inl ⟨?_, ?_, ?_⟩ <;> rw [Nat.toString_eq_ofList_toDigits, String.toList_ofList]
  · exact Nat.toDigits_ne_nil
  · exact fun c hc => Nat.isDigit_of_mem_toDigits (by decide) (by decide) hc
  · exact Nat.ofDigitChars_ten_toDigits

end MarkupSeeds.Size
