import MarkupSeeds.Proofs.Text.Encoding
import Mathlib.Data.List.Basic

/-!
# Well-formed bytes

What the strict reader accepts, said without a reader.  A sequence of one to four bytes
carries a value; it is well formed if no shorter sequence could carry the value and the
value is a character, neither a surrogate nor above U+10FFFF.  The strict reader accepts
exactly the bytes that are made up of such sequences, and it is the inverse of encoding.
-/

namespace MarkupSeeds.Utf8

def IsTrailing (b : UInt8) : Prop := 0x80 ≤ b.toNat ∧ b.toNat < 0xC0

/-- The first byte tells by its high bits how many bytes there are.  Its low bits are
followed by six bits of each further byte. -/
inductive Carries : Bytes → Nat → Prop
  | one {a} (ha : a.toNat < 0x80) : Carries [a] a.toNat
  | two {a b} (ha : 0xC0 ≤ a.toNat ∧ a.toNat < 0xE0) (hb : IsTrailing b) :
      Carries [a, b] ((a.toNat - 0xC0) * 0x40 + (b.toNat - 0x80))
  | three {a b c} (ha : 0xE0 ≤ a.toNat ∧ a.toNat < 0xF0) (hb : IsTrailing b)
      (hc : IsTrailing c) :
      Carries [a, b, c]
        ((a.toNat - 0xE0) * 0x1000 + (b.toNat - 0x80) * 0x40 + (c.toNat - 0x80))
  | four {a b c d} (ha : 0xF0 ≤ a.toNat ∧ a.toNat < 0xF8) (hb : IsTrailing b)
      (hc : IsTrailing c) (hd : IsTrailing d) :
      Carries [a, b, c, d]
        ((a.toNat - 0xF0) * 0x40000 + (b.toNat - 0x80) * 0x1000 + (c.toNat - 0x80) * 0x40 +
          (d.toNat - 0x80))

/-- The least value that needs so many bytes. -/
def leastValue : Nat → Nat
  | 2 => 0x80
  | 3 => 0x800
  | 4 => 0x10000
  | _ => 0

/-- The one sequence that stands for a value. -/
structure IsSequence (bytes : Bytes) (value : Nat) : Prop where
  carries : Carries bytes value
  /-- The form is not overlong. -/
  shortest : leastValue bytes.length ≤ value
  /-- The value is no surrogate and not above U+10FFFF. -/
  scalar : value.isValidChar

inductive WellFormed : Bytes → Prop
  | nil : WellFormed []
  | append {bytes value rest} (hsequence : IsSequence bytes value) (hrest : WellFormed rest) :
      WellFormed (bytes ++ rest)

/-! ## Sequences and characters -/

theorem toNat_ofNat_add {high base : Nat} (hsmall : high + base < 256) :
    (UInt8.ofNat (high + base)).toNat = high + base := by
  rw [UInt8.toNat_ofNat', Nat.mod_eq_of_lt hsmall]

theorem isTrailing_continuation (value : Nat) : IsTrailing (continuation value) := by
  rw [IsTrailing, toNat_continuation]
  omega

theorem carries_two {value : Nat} (hhigh : value ≤ 0x7FF) :
    Carries [UInt8.ofNat (value / 64 % 32 + 192), continuation value] value := by
  have hlead := toNat_ofNat_add (show value / 64 % 32 + 192 < 256 by omega)
  have hcarries := Carries.two (by rw [hlead]; omega) (isTrailing_continuation value)
  rw [hlead, toNat_continuation] at hcarries
  convert hcarries using 1
  omega

theorem carries_three {value : Nat} (hhigh : value ≤ 0xFFFF) :
    Carries [UInt8.ofNat (value / 4096 % 16 + 224), continuation (value / 64),
      continuation value] value := by
  have hlead := toNat_ofNat_add (show value / 4096 % 16 + 224 < 256 by omega)
  have hcarries := Carries.three (by rw [hlead]; omega) (isTrailing_continuation (value / 64))
    (isTrailing_continuation value)
  rw [hlead, toNat_continuation, toNat_continuation] at hcarries
  convert hcarries using 1
  omega

theorem carries_four {value : Nat} (hhigh : value < 0x110000) :
    Carries [UInt8.ofNat (value / 262144 % 8 + 240), continuation (value / 4096),
      continuation (value / 64), continuation value] value := by
  have hlead := toNat_ofNat_add (show value / 262144 % 8 + 240 < 256 by omega)
  have hcarries := Carries.four (by rw [hlead]; omega) (isTrailing_continuation (value / 4096))
    (isTrailing_continuation (value / 64)) (isTrailing_continuation value)
  rw [hlead, toNat_continuation, toNat_continuation, toNat_continuation] at hcarries
  convert hcarries using 1
  omega

/-- Encoding a character gives the sequence that stands for it. -/
theorem isSequence_utf8EncodeChar (c : Char) : IsSequence (String.utf8EncodeChar c) c.toNat := by
  have hscalar : c.toNat.isValidChar := c.valid
  have hbound : c.toNat < 0x110000 := by
    rcases hscalar with hlow | ⟨-, hhigh⟩
    · exact Nat.lt_trans hlow (by decide)
    · exact hhigh
  rw [utf8EncodeChar_eq]
  split
  · have hbyte : (UInt8.ofNat c.toNat).toNat = c.toNat := by
      rw [UInt8.toNat_ofNat']
      omega
    have hcarries := Carries.one (a := UInt8.ofNat c.toNat) (by omega)
    rw [hbyte] at hcarries
    exact ⟨hcarries, Nat.zero_le _, hscalar⟩
  split
  · exact ⟨carries_two (by omega), show 0x80 ≤ c.toNat by omega, hscalar⟩
  split
  · exact ⟨carries_three (by omega), show 0x800 ≤ c.toNat by omega, hscalar⟩
  · exact ⟨carries_four (by omega), show 0x10000 ≤ c.toNat by omega, hscalar⟩

theorem continuation_eq {b : UInt8} {value : Nat} (hvalue : value % 64 + 128 = b.toNat) :
    continuation value = b := by
  apply UInt8.toNat_inj.mp
  rw [toNat_continuation, hvalue]

theorem ofNat_eq (b : UInt8) {value : Nat} (hvalue : value = b.toNat) : UInt8.ofNat value = b := by
  rw [hvalue, UInt8.ofNat_toNat]

/-- Each sequence is the encoding of a character. -/
theorem utf8EncodeChar_of_isSequence {bytes : Bytes} {c : Char}
    (hsequence : IsSequence bytes c.toNat) : String.utf8EncodeChar c = bytes := by
  obtain ⟨hcarries, hshortest, -⟩ := hsequence
  generalize hvalue : c.toNat = value at hcarries hshortest
  rw [utf8EncodeChar_eq, hvalue]
  cases hcarries with
  | @one a ha => rw [if_pos (by omega), UInt8.ofNat_toNat]
  | @two a b ha hb =>
      change 0x80 ≤ _ at hshortest
      rw [IsTrailing] at hb
      rw [if_neg (by omega), if_pos (by omega), ofNat_eq a (by omega),
        continuation_eq (b := b) (by omega)]
  | @three a b c ha hb hc =>
      change 0x800 ≤ _ at hshortest
      rw [IsTrailing] at hb hc
      rw [if_neg (by omega), if_neg (by omega), if_pos (by omega), ofNat_eq a (by omega),
        continuation_eq (b := b) (by omega), continuation_eq (b := c) (by omega)]
  | @four a b c d ha hb hc hd =>
      change 0x10000 ≤ _ at hshortest
      rw [IsTrailing] at hb hc hd
      rw [if_neg (by omega), if_neg (by omega), if_neg (by omega), ofNat_eq a (by omega),
        continuation_eq (b := b) (by omega), continuation_eq (b := c) (by omega),
        continuation_eq (b := d) (by omega)]

theorem IsSequence.exists_char {bytes : Bytes} {value : Nat} (hsequence : IsSequence bytes value) :
    ∃ c : Char, String.utf8EncodeChar c = bytes := by
  have hvalue : (Char.ofNat value).toNat = value := by
    rw [Char.ofNat, dif_pos hsequence.scalar]
    rfl
  exact ⟨Char.ofNat value, utf8EncodeChar_of_isSequence (hvalue.symm ▸ hsequence)⟩

/-! ## The strict reader -/

/-- The bounds of the byte behind a leading byte, with the lengths told apart. -/
inductive Announces (b : Nat) (lead : Lead) : Prop
  | one (hmore : lead.more = 1) (hb : 0xC2 ≤ b ∧ b < 0xE0) (hlow : 0x80 ≤ lead.low.toNat)
      (hhigh : lead.high.toNat < 0xC0)
  | two (hmore : lead.more = 2) (hb : 0xE0 ≤ b ∧ b < 0xF0)
      (hlow : if b = 0xE0 then 0xA0 ≤ lead.low.toNat else 0x80 ≤ lead.low.toNat)
      (hhigh : if b = 0xED then lead.high.toNat < 0xA0 else lead.high.toNat < 0xC0)
  | three (hmore : lead.more = 3) (hb : 0xF0 ≤ b ∧ b < 0xF5)
      (hlow : if b = 0xF0 then 0x90 ≤ lead.low.toNat else 0x80 ≤ lead.low.toNat)
      (hhigh : if b = 0xF4 then lead.high.toNat < 0x90 else lead.high.toNat < 0xC0)

theorem announces_of_lead? {b : UInt8} {lead : Lead} (hlead : lead? b = some lead) :
    Announces b.toNat lead := by
  have hbyte := b.toNat_lt
  simp only [lead?, UInt8.lt_iff_toNat_lt, ← UInt8.toNat_inj] at hlead
  change (if b.toNat < 194 then _ else if b.toNat < 224 then _ else if b.toNat = 224 then _
    else if b.toNat = 237 then _ else if b.toNat < 240 then _ else if b.toNat = 240 then _
    else if b.toNat < 244 then _ else if b.toNat = 244 then _ else none) = some lead at hlead
  split_ifs at hlead with h1 h2 h3 h4 h5 h6 h7 h8 <;> cases hlead
  · exact .one rfl (by omega) (by decide) (by decide)
  · exact .two rfl (by omega) (by simp [h3]) (by simp [h3])
  · exact .two rfl (by omega) (by simp [h4]) (by simp [h4])
  · exact .two rfl (by omega) (by simp [h3]) (by simp [h4])
  · exact .three rfl (by omega) (by simp [h6]) (by simp [h6])
  · exact .three rfl (by omega) (by simp [h6]) (by rw [if_neg (by omega)]; decide)
  · exact .three rfl (by omega) (by simp [h8]) (by simp [h8])

theorem isTrailing_of_isContinuation {b : UInt8} (hb : isContinuation b) : IsTrailing b := by
  simp only [isContinuation, Bool.and_eq_true, decide_eq_true_eq, UInt8.le_iff_toNat_le] at hb
  change 128 ≤ b.toNat ∧ b.toNat ≤ 191 at hb
  rw [IsTrailing]
  omega

/-- A complete run of the bytes that were announced. -/
theorem Lead.run_eq {lead : Lead} {rest : Bytes} (hcomplete : (lead.run rest).length = lead.more)
    (hmore : lead.more ≠ 0) :
    ∃ b others, lead.run rest = b :: others ∧ lead.low ≤ b ∧ b ≤ lead.high ∧
      others.length + 1 = lead.more ∧ ∀ c ∈ others, IsTrailing c := by
  cases rest with
  | nil => exact absurd hcomplete.symm hmore
  | cons b rest =>
      rw [Lead.run] at hcomplete ⊢
      split at hcomplete
      · rename_i hbounds
        rw [if_pos hbounds]
        refine ⟨b, _, rfl, hbounds.1, hbounds.2, hcomplete, ?_⟩
        intro c hc
        exact isTrailing_of_isContinuation (List.all_eq_true.mp List.all_takeWhile c hc)
      · exact absurd hcomplete.symm hmore

theorem Lead.run_prefix (lead : Lead) (rest : Bytes) : lead.run rest <+: rest := by
  cases rest with
  | nil => exact List.prefix_rfl
  | cons b rest =>
      rw [Lead.run]
      split
      · have htail := (List.takeWhile_prefix isContinuation).trans
          (List.take_prefix (lead.more - 1) rest)
        exact (List.prefix_cons_inj b).mpr htail
      · exact List.nil_prefix

/-- The bounds on the second byte rule out the overlong forms, the surrogates and the values
above U+10FFFF. -/
theorem exists_isSequence_of_lead? {b : UInt8} {lead : Lead} {rest : Bytes}
    (hlead : lead? b = some lead) (hcomplete : (lead.run rest).length = lead.more) :
    ∃ value, IsSequence (b :: lead.run rest) value := by
  have hannounces := announces_of_lead? hlead
  have hmore : lead.more ≠ 0 := by
    cases hannounces with
    | one hmore => omega
    | two hmore => omega
    | three hmore => omega
  obtain ⟨c, others, hrun, hlow, hhigh, hlength, hothers⟩ := Lead.run_eq hcomplete hmore
  rw [UInt8.le_iff_toNat_le] at hlow hhigh
  rw [hrun]
  cases hannounces with
  | one hcount hb hleast hgreatest =>
      obtain rfl : others = [] := List.length_eq_zero_iff.mp (by omega)
      refine ⟨_, .two (by omega) ⟨by omega, by omega⟩, ?_, ?_⟩
      · change 0x80 ≤ _
        omega
      · rw [Nat.isValidChar]
        omega
  | two hcount hb hleast hgreatest =>
      obtain ⟨d, rfl⟩ := List.length_eq_one_iff.mp (show others.length = 1 by omega)
      have hd := hothers d List.mem_cons_self
      split_ifs at hleast hgreatest
      all_goals
        refine ⟨_, .three (by omega) ⟨by omega, by omega⟩ hd, ?_, ?_⟩
        · change 0x800 ≤ _
          omega
        · rw [Nat.isValidChar]
          rw [IsTrailing] at hd
          omega
  | three hcount hb hleast hgreatest =>
      obtain ⟨d, f, rfl⟩ := List.length_eq_two.mp (show others.length = 2 by omega)
      have hd := hothers d List.mem_cons_self
      have hf := hothers f (List.mem_cons_of_mem _ List.mem_cons_self)
      split_ifs at hleast hgreatest
      all_goals
        refine ⟨_, .four (by omega) ⟨by omega, by omega⟩ hd hf, ?_, ?_⟩
        · change 0x10000 ≤ _
          omega
        · rw [Nat.isValidChar]
          rw [IsTrailing] at hd hf
          omega

/-- What the reader takes for a unit at the head of a sequence is the character of the sequence. -/
theorem utf8EncodeChar_of_units {sequence rest : Bytes} {value : Nat} {c : Char}
    (hsequence : IsSequence sequence value)
    (hunits : units (sequence ++ rest) = some c :: units rest) :
    String.utf8EncodeChar c = sequence := by
  obtain ⟨d, hd⟩ := hsequence.exists_char
  have hchar := units_utf8EncodeChar d rest
  rw [hd, hunits, List.cons.injEq, Option.some.injEq] at hchar
  rw [hchar.1, hd]

theorem encodeChars_units {bytes : Bytes} (hsome : ∀ unit ∈ units bytes, unit.isSome) :
    encodeChars ((units bytes).filterMap id) = bytes := by
  fun_induction units bytes with
  | case1 => rfl
  | case2 b rest hascii ih =>
      have hsmall : b.toNat < 0x80 := UInt8.lt_iff_toNat_lt.mp hascii
      have hsequence : IsSequence [b] b.toNat := ⟨.one hsmall, Nat.zero_le _, Or.inl (by omega)⟩
      have hhead := utf8EncodeChar_of_units hsequence (units_ascii hascii rest)
      have hrest := ih fun unit hmem => hsome unit (List.mem_cons_of_mem _ hmem)
      rw [List.filterMap_cons_some (f := id) rfl, encodeChars_cons, hhead, hrest,
        List.singleton_append]
  | case3 => exact absurd (hsome none List.mem_cons_self) (by decide)
  | case4 b rest hlong lead hlead run unit ih =>
      have hunit := hsome unit List.mem_cons_self
      have hrest := ih fun unit hmem => hsome unit (List.mem_cons_of_mem _ hmem)
      by_cases hcomplete : run.length = lead.more
      · have hvalue : unit = some (lead.char b run) := if_pos hcomplete
        obtain ⟨value, hsequence⟩ := exists_isSequence_of_lead? hlead hcomplete
        have hbytes : b :: rest = (b :: run) ++ rest.drop run.length := by
          rw [List.cons_append, List.prefix_iff_eq_append.mp (lead.run_prefix rest)]
        have hunits : units ((b :: run) ++ rest.drop run.length) =
            some (lead.char b run) :: units (rest.drop run.length) := by
          rw [← hbytes, units, if_neg hlong, hlead]
          simp only [run, hcomplete, if_true]
        have hhead := utf8EncodeChar_of_units hsequence hunits
        rw [hvalue, List.filterMap_cons_some (f := id) rfl, encodeChars_cons, hhead, hrest,
          ← hbytes]
      · rw [show unit = none from if_neg hcomplete] at hunit
        cases hunit

/-- Strict reading is the inverse of encoding. -/
theorem decode?_eq_some_iff {bytes : Bytes} {text : String} :
    decode? bytes = some text ↔ encode text = bytes := by
  constructor
  · intro hdecode
    rw [decode?] at hdecode
    split at hdecode
    · rename_i hall
      cases hdecode
      rw [encode_ofList]
      exact encodeChars_units (List.all_eq_true.mp hall)
    · cases hdecode
  · intro hencode
    subst hencode
    have hall : (text.toList.map some).all Option.isSome = true := by simp
    have hchars : (text.toList.map some).filterMap id = text.toList := by simp
    rw [decode?, units_encode, if_pos hall, hchars, String.ofList_toList]

theorem wellFormed_iff_exists_encode {bytes : Bytes} :
    WellFormed bytes ↔ ∃ text, encode text = bytes := by
  constructor
  · intro hbytes
    induction hbytes with
    | nil => exact ⟨"", rfl⟩
    | append hsequence hrest ih =>
        obtain ⟨text, rfl⟩ := ih
        obtain ⟨c, rfl⟩ := hsequence.exists_char
        exact ⟨String.ofList (c :: text.toList), by rw [encode_ofList, encodeChars_cons, encode]⟩
  · intro hencode
    obtain ⟨text, rfl⟩ := hencode
    rw [encode]
    induction text.toList with
    | nil => exact .nil
    | cons c chars ih => exact .append (isSequence_utf8EncodeChar c) ih

/-- The bytes from 0xF8 on occur in no sequence. -/
theorem Carries.lt_of_mem {bytes : Bytes} {value : Nat} (hcarries : Carries bytes value) :
    ∀ b ∈ bytes, b.toNat < 0xF8 := by
  cases hcarries with
  | one ha =>
      rw [List.forall_mem_singleton]
      omega
  | two ha hb =>
      rw [IsTrailing] at hb
      rw [List.forall_mem_cons, List.forall_mem_singleton]
      omega
  | three ha hb hc =>
      rw [IsTrailing] at hb hc
      rw [List.forall_mem_cons, List.forall_mem_cons, List.forall_mem_singleton]
      omega
  | four ha hb hc hd =>
      rw [IsTrailing] at hb hc hd
      rw [List.forall_mem_cons, List.forall_mem_cons, List.forall_mem_cons,
        List.forall_mem_singleton]
      omega

theorem WellFormed.lt_of_mem {bytes : Bytes} (hbytes : WellFormed bytes) :
    ∀ b ∈ bytes, b.toNat < 0xF8 := by
  induction hbytes with
  | nil => simp
  | append hsequence hrest ih =>
      intro b hmem
      rcases List.mem_append.mp hmem with hmem | hmem
      · exact hsequence.carries.lt_of_mem b hmem
      · exact ih b hmem

end MarkupSeeds.Utf8
