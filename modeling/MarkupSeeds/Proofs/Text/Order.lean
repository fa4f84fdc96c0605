import MarkupSeeds.Proofs.Text.Encoding

/-!
# The order of texts

Texts are ordered by their characters, their stored forms by bytes, and it is the same order.
A longer sequence begins with a larger byte, and sequences of one length carry the bits of
their characters from the highest to the lowest.  So where two texts differ first, their bytes
differ before either character ends, and whatever follows is of no account.
-/

namespace MarkupSeeds.Utf8

/-- Where the bytes differ first there is one on either side, and the left one is smaller. -/
def Precedes (left right : Bytes) : Prop :=
  ∃ common x y rest rest',
    left = common ++ x :: rest ∧ right = common ++ y :: rest' ∧ x < y

namespace Precedes

variable {left right : Bytes}

theorem of_head {x y : UInt8} (hlt : x < y) (rest rest' : Bytes) :
    Precedes (x :: rest) (y :: rest') :=
  ⟨[], x, y, rest, rest', rfl, rfl, hlt⟩

/-- What follows is of no account. -/
theorem append (hprecedes : Precedes left right) (more more' : Bytes) :
    Precedes (left ++ more) (right ++ more') := by
  obtain ⟨common, x, y, rest, rest', rfl, rfl, hlt⟩ := hprecedes
  exact ⟨common, x, y, rest ++ more, rest' ++ more', by simp, by simp, hlt⟩

theorem lt (hprecedes : Precedes left right) : left < right := by
  obtain ⟨common, x, y, rest, rest', rfl, rfl, hlt⟩ := hprecedes
  induction common with
  | nil => exact List.Lex.rel hlt
  | cons b common ih => exact List.Lex.cons ih

end Precedes

/-- The lowest six bits decide between values that agree in all others. -/
theorem precedes_continuation (front front' : Bytes) {value value' : Nat} (hlt : value < value')
    (hhigh : value / 64 < value' / 64 → Precedes front front')
    (hsame : value / 64 = value' / 64 → front = front') :
    Precedes (front ++ [continuation value]) (front' ++ [continuation value']) := by
  rcases Nat.lt_or_eq_of_le (Nat.div_le_div_right (c := 64) (Nat.le_of_lt hlt)) with hless | heq
  · exact (hhigh hless).append _ _
  · rw [hsame heq]
    refine ⟨front', continuation value, continuation value', [], [], rfl, rfl, ?_⟩
    rw [UInt8.lt_iff_toNat_lt, toNat_continuation, toNat_continuation]
    omega

/-- A leading byte that is smaller decides, whatever is announced. -/
theorem precedes_lead {low high : Nat} (hlt : low < high) (hsmall : high < 256)
    (rest rest' : Bytes) : Precedes (UInt8.ofNat low :: rest) (UInt8.ofNat high :: rest') := by
  refine Precedes.of_head ?_ rest rest'
  rw [UInt8.lt_iff_toNat_lt, UInt8.toNat_ofNat', UInt8.toNat_ofNat']
  omega

section

variable {value value' : Nat} (hlt : value < value')

include hlt

theorem precedes_two (hhigh : value' ≤ 0x7FF) :
    Precedes [UInt8.ofNat (value / 64 % 32 + 192), continuation value]
      [UInt8.ofNat (value' / 64 % 32 + 192), continuation value'] := by
  apply precedes_continuation [_] [_] hlt
  · intro hless
    exact precedes_lead (by omega) (by omega) [] []
  · intro hsame
    rw [hsame]

theorem precedes_three (hhigh : value' ≤ 0xFFFF) :
    Precedes [UInt8.ofNat (value / 4096 % 16 + 224), continuation (value / 64), continuation value]
      [UInt8.ofNat (value' / 4096 % 16 + 224), continuation (value' / 64),
        continuation value'] := by
  apply precedes_continuation [_, _] [_, _] hlt
  · intro hless
    apply precedes_continuation [_] [_] hless
    · intro hless'
      exact precedes_lead (by omega) (by omega) [] []
    · intro hsame
      rw [show value / 4096 = value' / 4096 by omega]
  · intro hsame
    rw [hsame, show value / 4096 = value' / 4096 by omega]

theorem precedes_four (hhigh : value' < 0x110000) :
    Precedes [UInt8.ofNat (value / 262144 % 8 + 240), continuation (value / 4096),
        continuation (value / 64), continuation value]
      [UInt8.ofNat (value' / 262144 % 8 + 240), continuation (value' / 4096),
        continuation (value' / 64), continuation value'] := by
  apply precedes_continuation [_, _, _] [_, _, _] hlt
  · intro hless
    apply precedes_continuation [_, _] [_, _] hless
    · intro hless'
      have hupper : value / 4096 < value' / 4096 := by omega
      apply precedes_continuation [_] [_] hupper
      · intro hless''
        exact precedes_lead (by omega) (by omega) [] []
      · intro hsame
        rw [show value / 262144 = value' / 262144 by omega]
    · intro hsame
      rw [show value / 4096 = value' / 4096 by omega, show value / 262144 = value' / 262144 by omega]
  · intro hsame
    rw [hsame, show value / 4096 = value' / 4096 by omega,
      show value / 262144 = value' / 262144 by omega]

end

/-- The sequence of a smaller character precedes that of a larger one. -/
theorem precedes_utf8EncodeChar {c d : Char} (hlt : c < d) :
    Precedes (String.utf8EncodeChar c) (String.utf8EncodeChar d) := by
  have hvalue : c.toNat < d.toNat := hlt
  have hbound : d.toNat < 0x110000 := by
    have hscalar : d.toNat < 0xD800 ∨ 0xDFFF < d.toNat ∧ d.toNat < 0x110000 := d.valid
    omega
  rw [utf8EncodeChar_eq c, utf8EncodeChar_eq d]
  -- The smaller character is never the longer one, and a longer sequence has the larger lead.
  split
  · split
    · exact precedes_lead hvalue (by omega) [] []
    · split
      · exact precedes_lead (by omega) (by omega) _ _
      · split <;> exact precedes_lead (by omega) (by omega) _ _
  · rename_i hone
    have hone' : ¬ d.toNat ≤ 0x7F := by omega
    rw [if_neg hone']
    split
    · split
      · exact precedes_two hvalue (by omega)
      · split <;> exact precedes_lead (by omega) (by omega) _ _
    · rename_i htwo
      have htwo' : ¬ d.toNat ≤ 0x7FF := by omega
      rw [if_neg htwo']
      split
      · split
        · exact precedes_three hvalue (by omega)
        · exact precedes_lead (by omega) (by omega) _ _
      · rename_i hthree
        have hthree' : ¬ d.toNat ≤ 0xFFFF := by omega
        rw [if_neg hthree']
        exact precedes_four hvalue hbound

theorem encodeChars_lt {left right : List Char} (hlt : left < right) :
    encodeChars left < encodeChars right := by
  induction hlt with
  | @nil c chars =>
      obtain ⟨b, rest, hbytes⟩ := List.exists_cons_of_ne_nil (String.utf8EncodeChar_ne_nil (c := c))
      rw [encodeChars_cons, hbytes]
      exact List.Lex.nil
  | rel hchar =>
      rw [encodeChars_cons, encodeChars_cons]
      exact ((precedes_utf8EncodeChar hchar).append _ _).lt
  | cons _ ih =>
      rw [encodeChars_cons, encodeChars_cons]
      exact List.append_left_lt ih

/-- Comparing bytes and comparing characters comes to the same. -/
theorem encode_lt_encode_iff {left right : String} :
    encode left < encode right ↔ left < right := by
  constructor
  · intro hbytes
    by_contra hnot
    by_cases hback : right < left
    · exact List.lt_asymm hbytes (encodeChars_lt hback)
    · have hsame : left = right :=
        String.le_antisymm (String.not_lt.mp hback) (String.not_lt.mp hnot)
      rw [hsame] at hbytes
      exact List.lt_irrefl _ hbytes
  · exact encodeChars_lt

end MarkupSeeds.Utf8
