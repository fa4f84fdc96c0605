import MarkupSeeds.Text.Utf8
import Mathlib.Data.List.TakeWhile
import Mathlib.Tactic.IntervalCases

/-!
# Bytes of a text

Reading the bytes of a text gives back its characters, so counting units counts
characters and lenient reading loses nothing.  A byte below `0x80` is always a
character of its own.  A piece of the bytes that begins and ends with such bytes
is therefore the encoding of a piece of the text.
-/

namespace MarkupSeeds.Utf8

@[simp]
theorem encodeChars_nil : encodeChars [] = [] := rfl

theorem encodeChars_cons (c : Char) (chars : List Char) :
    encodeChars (c :: chars) = String.utf8EncodeChar c ++ encodeChars chars := rfl

@[simp]
theorem encodeChars_append (left right : List Char) :
    encodeChars (left ++ right) = encodeChars left ++ encodeChars right :=
  List.flatMap_append

@[simp]
theorem encode_append (left right : String) :
    encode (left ++ right) = encode left ++ encode right := by
  simp [encode]

@[simp]
theorem encode_ofList (chars : List Char) :
    encode (String.ofList chars) = encodeChars chars := by
  simp [encode]

/-! ## The units of a character -/

theorem units_ascii {b : UInt8} (hascii : b < 0x80) (rest : Bytes) :
    units (b :: rest) = some (Char.ofNat b.toNat) :: units rest := by
  rw [units, if_pos hascii]

/-- The byte that carries the lowest six bits of a value. -/
def continuation (value : Nat) : UInt8 := UInt8.ofNat (value % 64 + 128)

theorem toNat_continuation (value : Nat) : (continuation value).toNat = value % 64 + 128 := by
  rw [continuation, UInt8.toNat_ofNat']
  omega

theorem isContinuation_continuation (value : Nat) : isContinuation (continuation value) = true := by
  simp only [isContinuation, UInt8.le_iff_toNat_le, toNat_continuation, Bool.and_eq_true,
    decide_eq_true_eq]
  change 128 ≤ value % 64 + 128 ∧ value % 64 + 128 ≤ 191
  omega

/-- A leading byte followed by all the bytes that it announces is one unit. -/
theorem units_sequence {b : UInt8} {lead : Lead} {value : Nat} {others : Bytes}
    (hlead : lead? b = some lead) (hlow : lead.low.toNat ≤ value % 64 + 128)
    (hhigh : value % 64 + 128 ≤ lead.high.toNat) (hmore : others.length + 1 = lead.more)
    (hothers : ∀ c ∈ others, isContinuation c) (rest : Bytes) :
    units (b :: continuation value :: (others ++ rest)) =
      some (lead.char b (continuation value :: others)) :: units rest := by
  have hbyte : ¬ b < 0x80 := by
    intro hascii
    have hsmall : b < 0xC2 := UInt8.lt_trans hascii (by decide)
    rw [lead?, if_pos hsmall] at hlead
    cases hlead
  have hwhole : others.takeWhile isContinuation = others :=
    List.takeWhile_eq_self_iff.mpr hothers
  have hrun : lead.run (continuation value :: (others ++ rest)) = continuation value :: others := by
    rw [← toNat_continuation] at hlow hhigh
    rw [Lead.run, if_pos ⟨UInt8.le_iff_toNat_le.mpr hlow, UInt8.le_iff_toNat_le.mpr hhigh⟩,
      ← hmore, Nat.add_sub_cancel, List.take_left, hwhole]
  rw [units, if_neg hbyte, hlead]
  simp only [hrun, List.length_cons, hmore, if_true]
  rw [← hmore, List.drop_succ_cons, List.drop_left]

theorem lead?_two {high : Nat} (hlow : 2 ≤ high) (hhigh : high < 32) :
    lead? (UInt8.ofNat (high + 192)) = some ⟨1, 0x80, 0xBF⟩ := by
  interval_cases high <;> rfl

theorem lead?_three {high : Nat} (hhigh : high < 16) :
    lead? (UInt8.ofNat (high + 224)) =
      some ⟨2, if high = 0 then 0xA0 else 0x80, if high = 13 then 0x9F else 0xBF⟩ := by
  interval_cases high <;> rfl

theorem lead?_four {high : Nat} (hhigh : high < 5) :
    lead? (UInt8.ofNat (high + 240)) =
      some ⟨3, if high = 0 then 0x90 else 0x80, if high = 4 then 0x8F else 0xBF⟩ := by
  interval_cases high <;> rfl

/-- The leading bits and the groups of six bits that a character is cut into. -/
theorem utf8EncodeChar_eq (c : Char) :
    String.utf8EncodeChar c =
      if c.toNat ≤ 0x7F then [UInt8.ofNat c.toNat]
      else if c.toNat ≤ 0x7FF then
        [UInt8.ofNat (c.toNat / 64 % 32 + 192), continuation c.toNat]
      else if c.toNat ≤ 0xFFFF then
        [UInt8.ofNat (c.toNat / 4096 % 16 + 224), continuation (c.toNat / 64),
          continuation c.toNat]
      else
        [UInt8.ofNat (c.toNat / 262144 % 8 + 240), continuation (c.toNat / 4096),
          continuation (c.toNat / 64), continuation c.toNat] := rfl

theorem units_two {value : Nat} (hlow : 0x7F < value) (hhigh : value ≤ 0x7FF) (rest : Bytes) :
    units (UInt8.ofNat (value / 64 % 32 + 192) :: continuation value :: rest) =
      some (Char.ofNat value) :: units rest := by
  have hlead : lead? (UInt8.ofNat (value / 64 % 32 + 192)) = _ := lead?_two (by omega) (by omega)
  have hlower : (0x80 : UInt8).toNat ≤ value % 64 + 128 := Nat.le_add_left ..
  have hupper : value % 64 + 128 ≤ (0xBF : UInt8).toNat := by
    change _ ≤ 191
    omega
  have hunits : units (_ :: continuation value :: ([] ++ rest)) = _ :=
    units_sequence hlead hlower hupper rfl (by simp) rest
  rw [List.nil_append] at hunits
  rw [hunits, Lead.char]
  congr 3
  simp only [List.foldl_cons, List.foldl_nil, toNat_continuation, UInt8.toNat_ofNat']
  change (value / 64 % 32 + 192) % 256 % 32 * 64 + _ = _
  omega

/-- The bounds of the second byte keep out the overlong forms and the surrogates. -/
theorem units_three {value : Nat} (hlow : 0x7FF < value) (hhigh : value ≤ 0xFFFF)
    (hscalar : value < 0xD800 ∨ 0xDFFF < value) (rest : Bytes) :
    units (UInt8.ofNat (value / 4096 % 16 + 224) :: continuation (value / 64) ::
        continuation value :: rest) =
      some (Char.ofNat value) :: units rest := by
  have hlead : lead? (UInt8.ofNat (value / 4096 % 16 + 224)) = _ := lead?_three (by omega)
  have hlower : (if value / 4096 % 16 = 0 then (0xA0 : UInt8) else 0x80).toNat ≤
      value / 64 % 64 + 128 := by
    split
    · change 160 ≤ _
      omega
    · exact Nat.le_add_left ..
  have hupper : value / 64 % 64 + 128 ≤
      (if value / 4096 % 16 = 13 then (0x9F : UInt8) else 0xBF).toNat := by
    split
    · change _ ≤ 159
      omega
    · change _ ≤ 191
      omega
  have hunits : units (_ :: continuation (value / 64) :: ([continuation value] ++ rest)) = _ :=
    units_sequence hlead hlower hupper rfl (by simp [isContinuation_continuation]) rest
  rw [List.singleton_append] at hunits
  rw [hunits, Lead.char]
  congr 3
  simp only [List.foldl_cons, List.foldl_nil, toNat_continuation, UInt8.toNat_ofNat']
  change ((value / 4096 % 16 + 224) % 256 % 16 * 64 + _) * 64 + _ = _
  omega

/-- The bounds of the second byte keep out the overlong forms and what lies beyond
the last code point. -/
theorem units_four {value : Nat} (hlow : 0xFFFF < value) (hhigh : value < 0x110000)
    (rest : Bytes) :
    units (UInt8.ofNat (value / 262144 % 8 + 240) :: continuation (value / 4096) ::
        continuation (value / 64) :: continuation value :: rest) =
      some (Char.ofNat value) :: units rest := by
  have hlead : lead? (UInt8.ofNat (value / 262144 % 8 + 240)) = _ := lead?_four (by omega)
  have hlower : (if value / 262144 % 8 = 0 then (0x90 : UInt8) else 0x80).toNat ≤
      value / 4096 % 64 + 128 := by
    split
    · change 144 ≤ _
      omega
    · exact Nat.le_add_left ..
  have hupper : value / 4096 % 64 + 128 ≤
      (if value / 262144 % 8 = 4 then (0x8F : UInt8) else 0xBF).toNat := by
    split
    · change _ ≤ 143
      omega
    · change _ ≤ 191
      omega
  have hunits : units (_ :: continuation (value / 4096) ::
      ([continuation (value / 64), continuation value] ++ rest)) = _ :=
    units_sequence hlead hlower hupper rfl (by simp [isContinuation_continuation]) rest
  rw [List.cons_append, List.singleton_append] at hunits
  rw [hunits, Lead.char]
  congr 3
  simp only [List.foldl_cons, List.foldl_nil, toNat_continuation, UInt8.toNat_ofNat']
  change (((value / 262144 % 8 + 240) % 256 % 8 * 64 + _) * 64 + _) * 64 + _ = _
  omega

theorem units_utf8EncodeChar (c : Char) (rest : Bytes) :
    units (String.utf8EncodeChar c ++ rest) = some c :: units rest := by
  have hscalar : c.toNat < 0xD800 ∨ 0xDFFF < c.toNat ∧ c.toNat < 0x110000 := c.valid
  have hvalue := Char.ofNat_toNat c
  rw [utf8EncodeChar_eq]
  split
  · rename_i hone
    have hbyte : (UInt8.ofNat c.toNat).toNat = c.toNat := by
      rw [UInt8.toNat_ofNat']
      omega
    have hascii : UInt8.ofNat c.toNat < 0x80 := by
      rw [UInt8.lt_iff_toNat_lt, hbyte]
      exact Nat.lt_succ_of_le hone
    rw [List.singleton_append, units_ascii hascii, hbyte, hvalue]
  split
  · rw [List.cons_append, List.singleton_append, units_two (by omega) (by omega), hvalue]
  split
  · rw [List.cons_append, List.cons_append, List.singleton_append,
      units_three (by omega) (by omega) (by omega), hvalue]
  · rw [List.cons_append, List.cons_append, List.cons_append, List.singleton_append,
      units_four (by omega) (by omega), hvalue]

/-! ## The units of a text -/

theorem units_encodeChars (chars : List Char) : units (encodeChars chars) = chars.map some := by
  induction chars with
  | nil => rw [encodeChars_nil, units, List.map_nil]
  | cons c chars ih => rw [encodeChars_cons, units_utf8EncodeChar, ih, List.map_cons]

@[simp]
theorem units_encode (text : String) : units (encode text) = text.toList.map some :=
  units_encodeChars text.toList

@[simp]
theorem count_encode (text : String) : count (encode text) = text.length := by
  simp [count, String.length_toList]

@[simp]
theorem lossy_encode (text : String) : lossy (encode text) = text := by
  have hchars : (text.toList.map some).map (·.getD replacement) = text.toList := by
    rw [List.map_map]
    exact List.map_id _
  rw [lossy, units_encode, hchars, String.ofList_toList]

/-- A character takes at most four bytes. -/
theorem length_encode_le (text : String) : (encode text).length ≤ 4 * text.length := by
  have hchars : ∀ chars : List Char, (encodeChars chars).length ≤ 4 * chars.length := by
    intro chars
    induction chars with
    | nil => simp
    | cons c chars ih =>
        have hchar := c.utf8Size_le_four
        rw [encodeChars_cons, List.length_append, String.length_utf8EncodeChar, List.length_cons]
        omega
  rw [← String.length_toList]
  exact hchars text.toList

/-! ## Cutting at ASCII bytes -/

/-- An ASCII byte is not part of a longer sequence. -/
theorem eq_singleton_of_mem_utf8EncodeChar {c : Char} {b : UInt8} (hascii : b < 0x80)
    (hmem : b ∈ String.utf8EncodeChar c) : String.utf8EncodeChar c = [b] := by
  have hcontinuation : ∀ value, b ≠ continuation value := by
    intro value heq
    subst heq
    rw [UInt8.lt_iff_toNat_lt, toNat_continuation] at hascii
    exact absurd hascii (Nat.not_lt.mpr (Nat.le_add_left ..))
  have hlead : ∀ high base, 128 ≤ base → high + base < 256 → b ≠ UInt8.ofNat (high + base) := by
    intro high base hbase hsmall heq
    subst heq
    rw [UInt8.lt_iff_toNat_lt, UInt8.toNat_ofNat', Nat.mod_eq_of_lt hsmall] at hascii
    exact absurd hascii (Nat.not_lt.mpr (Nat.le_trans hbase (Nat.le_add_left ..)))
  rw [utf8EncodeChar_eq] at hmem ⊢
  split at hmem
  · rename_i hone
    rw [if_pos hone, List.mem_singleton.mp hmem]
  split at hmem
  · have hfirst := hlead (c.toNat / 64 % 32) 192 (by omega) (by omega)
    simp only [List.mem_cons, List.not_mem_nil, hfirst, hcontinuation, or_self] at hmem
  split at hmem
  · have hfirst := hlead (c.toNat / 4096 % 16) 224 (by omega) (by omega)
    simp only [List.mem_cons, List.not_mem_nil, hfirst, hcontinuation, or_self] at hmem
  · have hfirst := hlead (c.toNat / 262144 % 8) 240 (by omega) (by omega)
    simp only [List.mem_cons, List.not_mem_nil, hfirst, hcontinuation, or_self] at hmem

/-- A character beyond ASCII has no ASCII bytes. -/
theorem le_of_mem_utf8EncodeChar {c : Char} (hbeyond : 128 ≤ c.toNat) {b : UInt8}
    (hmem : b ∈ String.utf8EncodeChar c) : 0x80 ≤ b := by
  by_contra hascii
  have hsingle := eq_singleton_of_mem_utf8EncodeChar (UInt8.not_le.mp hascii) hmem
  have hsize : c.utf8Size = 1 := by
    rw [← String.length_utf8EncodeChar, hsingle, List.length_singleton]
  have hsmall : c.toNat ≤ 127 := UInt32.le_iff_toNat_le.mp (Char.utf8Size_eq_one_iff.mp hsize)
  omega

/-- Where the bytes of a text can be cut before an ASCII byte, the text can be cut. -/
theorem exists_chars_of_ascii {chars : List Char} {front rest : Bytes} {b : UInt8}
    (hascii : b < 0x80) (hbytes : encodeChars chars = front ++ b :: rest) :
    ∃ left c right, chars = left ++ c :: right ∧ encodeChars left = front ∧
      String.utf8EncodeChar c = [b] ∧ encodeChars right = rest := by
  induction chars generalizing front with
  | nil => simp at hbytes
  | cons c chars ih =>
      rw [encodeChars_cons] at hbytes
      by_cases hlong : (String.utf8EncodeChar c).length ≤ front.length
      · have hprefix := List.prefix_of_prefix_length_le ⟨_, hbytes⟩ ⟨_, rfl⟩ hlong
        obtain ⟨more, rfl⟩ := hprefix
        rw [List.append_assoc] at hbytes
        obtain ⟨left, d, right, rfl, hleft, hbyte, hright⟩ := ih (List.append_cancel_left hbytes)
        exact ⟨c :: left, d, right, rfl, by rw [encodeChars_cons, hleft], hbyte, hright⟩
      · -- The byte belongs to this character, which therefore has no other byte.
        have hmem : b ∈ String.utf8EncodeChar c := by
          have hat := congrArg (·[front.length]?) hbytes
          simp only [List.getElem?_append_left (Nat.not_le.mp hlong),
            List.getElem?_append_right (Nat.le_refl _), Nat.sub_self, List.getElem?_cons_zero]
            at hat
          exact List.mem_of_getElem? hat
        have hchar := eq_singleton_of_mem_utf8EncodeChar hascii hmem
        rw [hchar, List.length_singleton] at hlong
        have hfront : front = [] := List.length_eq_zero_iff.mp (by omega)
        subst hfront
        rw [hchar, List.singleton_append, List.nil_append, List.cons.injEq] at hbytes
        exact ⟨[], c, chars, rfl, rfl, hchar, hbytes.2⟩

/-- A byte that stands for an ASCII character occurs in a text only where the character does. -/
theorem mem_toList_of_mem_encode {text : String} {c : Char} (hascii : c.toNat < 128)
    (hmem : UInt8.ofNat c.toNat ∈ encode text) : c ∈ text.toList := by
  have hbyte : UInt8.ofNat c.toNat < 0x80 := by
    rw [UInt8.lt_iff_toNat_lt, UInt8.toNat_ofNat', Nat.mod_eq_of_lt (by omega)]
    exact hascii
  obtain ⟨front, rest, hbytes⟩ := List.append_of_mem hmem
  obtain ⟨left, d, right, hchars, -, hd, -⟩ := exists_chars_of_ascii hbyte hbytes
  have hc : String.utf8EncodeChar c = [UInt8.ofNat c.toNat] := by
    rw [utf8EncodeChar_eq, if_pos (by omega)]
  have hsame : d = c := by
    have hunits : units (encodeChars [d]) = units (encodeChars [c]) := by
      rw [encodeChars_cons, encodeChars_cons, hd, hc]
    rw [units_encodeChars, units_encodeChars] at hunits
    exact Option.some.inj (List.singleton_inj.mp hunits)
  rw [hchars, hsame]
  exact List.mem_append_right left List.mem_cons_self

/-- A piece of the bytes of a text with an ASCII byte at each end is itself a text. -/
theorem exists_text_of_ascii_ends {text : String} {front piece rest : Bytes} {first last : UInt8}
    (hbytes : encode text = front ++ piece ++ rest) (hhead : piece.head? = some first)
    (hlast : piece.getLast? = some last) (hfirst : first < 0x80) (hend : last < 0x80) :
    ∃ left middle right, text = left ++ middle ++ right ∧ encode left = front ∧
      encode middle = piece ∧ encode right = rest := by
  obtain ⟨tail, rfl⟩ := List.head?_eq_some_iff.mp hhead
  obtain ⟨initial, hinitial⟩ := List.getLast?_eq_some_iff.mp hlast
  have hstart : encodeChars text.toList = front ++ first :: (tail ++ rest) := by
    simpa [encode] using hbytes
  obtain ⟨left, c, after, hleft, hfront, hchar, hafter⟩ := exists_chars_of_ascii hfirst hstart
  have hstop : encodeChars (c :: after) = initial ++ last :: rest := by
    rw [encodeChars_cons, hchar, hafter, List.singleton_append, ← List.cons_append, hinitial,
      List.append_assoc, List.singleton_append]
  obtain ⟨middle, d, right, hmiddle, hinit, hlastChar, hright⟩ := exists_chars_of_ascii hend hstop
  refine ⟨String.ofList left, String.ofList (middle ++ [d]), String.ofList right, ?_, ?_, ?_, ?_⟩
  · apply String.toList_injective
    simp [hleft, hmiddle]
  · rw [encode_ofList, hfront]
  · rw [encode_ofList, encodeChars_append, hinit, encodeChars_cons, hlastChar, hinitial]
    rfl
  · rw [encode_ofList, hright]

end MarkupSeeds.Utf8
