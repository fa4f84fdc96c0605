/-!
# Sizes

Lengths, limits and counts are natural numbers.  Those that a caller chooses are
64-bit words.  The products and sums formed from limits stop at the largest word instead
of wrapping; a counter may wrap.
-/

namespace MarkupSeeds.Size

/-- The largest 64-bit word. -/
def largest : Nat := 18446744073709551615

def satAdd (a b : Nat) : Nat := min (a + b) largest

def satMul (a b : Nat) : Nat := min (a * b) largest

/-- What a word keeps of a number. -/
def wrap (n : Nat) : Nat := n % (largest + 1)

theorem satMul_eq_mul {a b : Nat} (hfits : a * b ≤ largest) : satMul a b = a * b :=
  Nat.min_eq_left hfits

theorem wrap_eq_self {n : Nat} (hfits : n ≤ largest) : wrap n = n :=
  Nat.mod_eq_of_lt (Nat.lt_succ_of_le hfits)

theorem wrap_le_largest (n : Nat) : wrap n ≤ largest :=
  Nat.le_of_lt_succ (Nat.mod_lt n (Nat.succ_pos largest))

theorem wrap_add_wrap (count amount : Nat) : wrap (wrap count + amount) = wrap (count + amount) :=
  Nat.mod_add_mod count (largest + 1) amount

/-- The value of a decimal digit.  Only the ASCII digits count. -/
def digit? (c : Char) : Option Nat :=
  if '0' ≤ c ∧ c ≤ '9' then some (c.toNat - '0'.toNat) else none

/-- The value of a run of digits, read from the left on top of `value`. -/
def digits? (value : Nat) : List Char → Option Nat
  | [] => some value
  | c :: rest => (digit? c).bind fun d => digits? (value * 10 + d) rest

/-- Reads a word: at least one digit, after an optional plus sign. -/
def ofText? (text : String) : Option Nat :=
  let numeral := match text.toList with
    | '+' :: rest => rest
    | all => all
  if numeral.isEmpty then none
  else (digits? 0 numeral).filter (· ≤ largest)

end MarkupSeeds.Size
