import MarkupSeeds.Proofs.Text.WellFormed

/-!
# Lenient reading

What the lenient reader makes of bytes, said without a reader.  Where a sequence begins it
stands for its character.  Elsewhere one replacement character is put for the longest piece that
some sequence begins with, or for a single byte if no sequence begins with it.  Such a piece has
no byte below `0x80`, however it is malformed and whatever stands behind it, so that reading
neither adds nor loses nor moves an ASCII character.
-/

namespace MarkupSeeds.Utf8

/-- Bytes that some sequence begins with. -/
def IsInitial (bytes : Bytes) : Prop := ∃ more value, IsSequence (bytes ++ more) value

/-- A piece for which one replacement character is put, with what stands behind it. -/
structure IsBroken (piece rest : Bytes) : Prop where
  ne_nil : piece ≠ []
  /-- No sequence begins here. -/
  malformed : ∀ sequence value, sequence <+: piece ++ rest → ¬ IsSequence sequence value
  initial : IsInitial piece ∨ piece.length = 1
  longest : ∀ longer, longer <+: piece ++ rest → IsInitial longer → longer.length ≤ piece.length

/-- The characters that lenient reading makes of bytes. -/
inductive ReadsLeniently : Bytes → List Char → Prop
  | nil : ReadsLeniently [] []
  | char {sequence c rest chars} (hsequence : IsSequence sequence c.toNat)
      (hrest : ReadsLeniently rest chars) : ReadsLeniently (sequence ++ rest) (c :: chars)
  | broken {piece rest chars} (hbroken : IsBroken piece rest)
      (hrest : ReadsLeniently rest chars) :
      ReadsLeniently (piece ++ rest) (replacement :: chars)

/-! ## The beginnings of sequences -/

/-- Bytes that may stand behind a leading byte, as far as they go. -/
structure Lead.Admits (lead : Lead) (others : Bytes) : Prop where
  first : ∀ b ∈ others.head?, lead.low ≤ b ∧ b ≤ lead.high
  further : ∀ b ∈ others.tail, isContinuation b
  length_le : others.length ≤ lead.more

section Lead

variable {lead : Lead} {b : UInt8} {others rest : Bytes}

variable (rest) in
theorem Lead.admits_run (hmore : lead.more ≠ 0) : lead.Admits (lead.run rest) := by
  cases rest with
  | nil => exact ⟨by simp [run], by simp [run], Nat.zero_le _⟩
  | cons b rest =>
      rw [run]
      split
      · rename_i hbounds
        refine ⟨?_, ?_, ?_⟩
        · intro c hc
          cases hc
          exact hbounds
        · intro c hc
          exact List.all_eq_true.mp List.all_takeWhile c hc
        · have htake : ((rest.take (lead.more - 1)).takeWhile isContinuation).length ≤
              (rest.take (lead.more - 1)).length := (List.takeWhile_prefix _).length_le
          rw [List.length_take] at htake
          rw [List.length_cons]
          omega
      · exact ⟨by simp, by simp, Nat.zero_le _⟩

/-- The run is the longest piece that is admitted. -/
theorem Lead.Admits.prefix_run (hadmits : lead.Admits others) (hbegins : others <+: rest) :
    others <+: lead.run rest := by
  cases others with
  | nil => exact List.nil_prefix
  | cons b others =>
      obtain ⟨more, rfl⟩ := hbegins
      have hbounds := hadmits.first b rfl
      have hlength : others.length ≤ lead.more - 1 := Nat.le_sub_one_of_lt hadmits.length_le
      have htake : others <+: (others ++ more).take (lead.more - 1) :=
        List.prefix_take_iff.mpr ⟨List.prefix_append others more, hlength⟩
      obtain ⟨behind, hbehind⟩ := htake
      have hfurther : ∀ c ∈ others, isContinuation c := hadmits.further
      rw [List.cons_append, run, if_pos hbounds, List.prefix_cons_inj, ← hbehind,
        List.takeWhile_append_of_pos hfurther]
      exact List.prefix_append others _

theorem Lead.Admits.of_append {more : Bytes} (hadmits : lead.Admits (others ++ more)) :
    lead.Admits others := by
  cases others with
  | nil => exact ⟨by simp, by simp, Nat.zero_le _⟩
  | cons b others =>
      refine ⟨hadmits.first, fun c hc => hadmits.further c (List.mem_append_left more hc), ?_⟩
      exact Nat.le_trans (List.prefix_append _ more).length_le hadmits.length_le

theorem low_le_high_of_lead? (hlead : lead? b = some lead) :
    lead.more ≠ 0 ∧ lead.low ≤ lead.high := by
  rw [lead?] at hlead
  split_ifs at hlead <;> cases hlead <;> decide

/-- What is admitted can be completed. -/
theorem Lead.Admits.exists_complete (hlead : lead? b = some lead) (hadmits : lead.Admits others) :
    ∃ missing, lead.Admits (others ++ missing) ∧ (others ++ missing).length = lead.more := by
  obtain ⟨hmore, hbounds⟩ := low_le_high_of_lead? hlead
  have htrailing : isContinuation 0x80 = true := by decide
  cases others with
  | nil =>
      have hlength : (lead.low :: List.replicate (lead.more - 1) (0x80 : UInt8)).length =
          lead.more := by
        rw [List.length_cons, List.length_replicate]
        omega
      refine ⟨lead.low :: List.replicate (lead.more - 1) 0x80, ⟨?_, ?_, hlength.le⟩, hlength⟩
      · intro c hc
        cases hc
        exact ⟨UInt8.le_refl _, hbounds⟩
      · intro c hc
        rw [List.eq_of_mem_replicate hc]
        exact htrailing
  | cons c others =>
      have hlength : (c :: others ++ List.replicate (lead.more - (c :: others).length)
          (0x80 : UInt8)).length = lead.more := by
        rw [List.length_append, List.length_replicate]
        exact Nat.add_sub_cancel' hadmits.length_le
      refine ⟨_, ⟨hadmits.first, ?_, hlength.le⟩, hlength⟩
      intro d hd
      rcases List.mem_append.mp hd with hd | hd
      · exact hadmits.further d hd
      · rw [List.eq_of_mem_replicate hd]
        exact htrailing

theorem Lead.Admits.run_eq (hadmits : lead.Admits others) : lead.run others = others :=
  (lead.run_prefix others).eq_of_length_le (hadmits.prefix_run List.prefix_rfl).length_le

theorem isSequence_singleton (hascii : b < 0x80) : IsSequence [b] b.toNat := by
  have hsmall : b.toNat < 0x80 := UInt8.lt_iff_toNat_lt.mp hascii
  exact ⟨.one hsmall, Nat.zero_le _, Or.inl (by omega)⟩

theorem eq_nil_of_units (hunits : units rest = []) : rest = [] := by
  cases rest with
  | nil => rfl
  | cons b rest =>
      rw [units] at hunits
      split at hunits
      · cases hunits
      · split at hunits <;> cases hunits

/-- A longer sequence is a leading byte and all that the byte announces. -/
theorem exists_lead_of_isSequence {value : Nat} (hlong : ¬ b < 0x80)
    (hsequence : IsSequence (b :: others) value) :
    ∃ lead, lead? b = some lead ∧ lead.Admits others ∧ others.length = lead.more := by
  obtain ⟨c, hc⟩ := hsequence.exists_char
  have hunits := units_utf8EncodeChar c []
  have hnothing : units [] = [] := by rw [units]
  rw [hc, List.append_nil, hnothing, units, if_neg hlong] at hunits
  cases hlead : lead? b with
  | none => simp [hlead] at hunits
  | some lead =>
      simp only [hlead, List.cons.injEq] at hunits
      obtain ⟨hunit, hrest⟩ := hunits
      -- The reader makes one character of a sequence, so the run is complete and nothing is left.
      have hcomplete : (lead.run others).length = lead.more := by
        by_contra hincomplete
        rw [if_neg hincomplete] at hunit
        cases hunit
      have hwhole : lead.run others = others :=
        (lead.run_prefix others).eq_of_length_le (List.drop_eq_nil_iff.mp (eq_nil_of_units hrest))
      have hadmits := lead.admits_run others (low_le_high_of_lead? hlead).1
      exact ⟨lead, rfl, hwhole ▸ hadmits, hwhole ▸ hcomplete⟩

/-- The bytes that a longer sequence begins with. -/
theorem isInitial_cons_iff (hlong : ¬ b < 0x80) :
    IsInitial (b :: others) ↔ ∃ lead, lead? b = some lead ∧ lead.Admits others := by
  constructor
  · intro hinitial
    obtain ⟨more, value, hsequence⟩ := hinitial
    obtain ⟨lead, hlead, hadmits, -⟩ := exists_lead_of_isSequence hlong hsequence
    exact ⟨lead, hlead, hadmits.of_append⟩
  · intro hlead
    obtain ⟨lead, hlead, hadmits⟩ := hlead
    obtain ⟨missing, hwhole, hlength⟩ := hadmits.exists_complete hlead
    have hrun := hwhole.run_eq
    obtain ⟨value, hsequence⟩ := exists_isSequence_of_lead? hlead (by rw [hrun, hlength])
    rw [hrun] at hsequence
    exact ⟨missing, value, hsequence⟩

end Lead

/-! ## The reader and its rule -/

/-- A broken piece has no ASCII byte in it: such a byte would be a sequence. -/
theorem IsBroken.le_of_mem {piece rest : Bytes} (hbroken : IsBroken piece rest) :
    ∀ b ∈ piece, ¬ b < 0x80 := by
  intro b hmem hascii
  have hsingle : piece ≠ [b] := by
    intro heq
    exact hbroken.malformed [b] b.toNat ⟨rest, by rw [heq]⟩ (isSequence_singleton hascii)
  rcases hbroken.initial with ⟨more, value, hsequence⟩ | hlength
  · obtain ⟨c, hc⟩ := hsequence.exists_char
    have hchar := eq_singleton_of_mem_utf8EncodeChar hascii
      (hc ▸ List.mem_append_left more hmem)
    rw [hc] at hchar
    rcases List.append_eq_singleton_iff.mp hchar with ⟨hnil, -⟩ | ⟨hpiece, -⟩
    · exact hbroken.ne_nil hnil
    · exact hsingle hpiece
  · obtain ⟨a, rfl⟩ := List.length_eq_one_iff.mp hlength
    exact hsingle (by rw [List.mem_singleton.mp hmem])

/-- A byte that no sequence begins with is a piece of its own. -/
theorem isBroken_singleton {b : UInt8} {rest : Bytes} (hlong : ¬ b < 0x80)
    (hlead : lead? b = none) : IsBroken [b] rest := by
  have hnone : ∀ others, ¬ IsInitial (b :: others) := by
    intro others hinitial
    obtain ⟨lead, hsome, -⟩ := (isInitial_cons_iff hlong).mp hinitial
    rw [hlead] at hsome
    cases hsome
  refine ⟨List.cons_ne_nil b [], ?_, Or.inr rfl, ?_⟩
  · intro sequence value hbegins hsequence
    cases sequence with
    | nil => cases hsequence.carries
    | cons c others =>
        obtain ⟨rfl, -⟩ := List.cons_prefix_cons.mp hbegins
        exact hnone others ⟨[], value, (List.append_nil _).symm ▸ hsequence⟩
  · intro longer hbegins hinitial
    cases longer with
    | nil => exact Nat.zero_le _
    | cons c others =>
        obtain ⟨rfl, -⟩ := List.cons_prefix_cons.mp hbegins
        exact absurd hinitial (hnone others)

/-- A leading byte with less behind it than it announces is a piece as long as it can be read. -/
theorem isBroken_run {b : UInt8} {lead : Lead} {rest : Bytes} (hlong : ¬ b < 0x80)
    (hlead : lead? b = some lead) (hincomplete : (lead.run rest).length ≠ lead.more) :
    IsBroken (b :: lead.run rest) (rest.drop (lead.run rest).length) := by
  have hwhole : b :: lead.run rest ++ rest.drop (lead.run rest).length = b :: rest := by
    rw [List.cons_append, List.prefix_iff_eq_append.mp (lead.run_prefix rest)]
  have hadmits := lead.admits_run rest (low_le_high_of_lead? hlead).1
  have hbound : ∀ others, others <+: rest → lead.Admits others →
      others.length ≤ (lead.run rest).length :=
    fun others hbegins hothers => (hothers.prefix_run hbegins).length_le
  have hbegins := (isInitial_cons_iff hlong).mpr ⟨lead, hlead, hadmits⟩
  refine ⟨List.cons_ne_nil b _, ?_, Or.inl hbegins, ?_⟩
  · intro sequence value hbegins hsequence
    cases sequence with
    | nil => cases hsequence.carries
    | cons c others =>
        rw [hwhole] at hbegins
        obtain ⟨rfl, hothers⟩ := List.cons_prefix_cons.mp hbegins
        obtain ⟨other, hother, hadmitted, hlength⟩ := exists_lead_of_isSequence hlong hsequence
        rw [hlead, Option.some.injEq] at hother
        subst hother
        have hle := hbound others hothers hadmitted
        exact hincomplete (Nat.le_antisymm hadmits.length_le (hlength ▸ hle))
  · intro longer hbegins hinitial
    cases longer with
    | nil => exact Nat.zero_le _
    | cons c others =>
        rw [hwhole] at hbegins
        obtain ⟨rfl, hothers⟩ := List.cons_prefix_cons.mp hbegins
        obtain ⟨other, hother, hadmitted⟩ := (isInitial_cons_iff hlong).mp hinitial
        rw [hlead, Option.some.injEq] at hother
        subst hother
        exact Nat.succ_le_succ (hbound others hothers hadmitted)

theorem readsLeniently_units (bytes : Bytes) :
    ReadsLeniently bytes ((units bytes).map (·.getD replacement)) := by
  fun_induction units bytes with
  | case1 => exact .nil
  | case2 b rest hascii ih =>
      have hchar := utf8EncodeChar_of_units (isSequence_singleton hascii) (units_ascii hascii rest)
      have hsequence := isSequence_utf8EncodeChar (Char.ofNat b.toNat)
      rw [hchar] at hsequence
      exact .char hsequence ih
  | case3 b rest hlong hlead ih => exact .broken (isBroken_singleton hlong hlead) ih
  | case4 b rest hlong lead hlead run unit ih =>
      have hbytes : b :: rest = (b :: run) ++ rest.drop run.length := by
        rw [List.cons_append, List.prefix_iff_eq_append.mp (lead.run_prefix rest)]
      rw [hbytes, List.map_cons]
      by_cases hcomplete : run.length = lead.more
      · have hvalue : unit = some (lead.char b run) := if_pos hcomplete
        obtain ⟨value, hsequence⟩ := exists_isSequence_of_lead? hlead hcomplete
        have hunits : units ((b :: run) ++ rest.drop run.length) =
            some (lead.char b run) :: units (rest.drop run.length) := by
          rw [← hbytes, units, if_neg hlong, hlead]
          simp only [run, hcomplete, if_true]
        have hchar := isSequence_utf8EncodeChar (lead.char b run)
        rw [utf8EncodeChar_of_units hsequence hunits] at hchar
        rw [hvalue]
        exact .char hchar ih
      · rw [show unit = none from if_neg hcomplete]
        exact .broken (isBroken_run hlong hlead hcomplete) ih

theorem units_of_isBroken {piece rest : Bytes} (hbroken : IsBroken piece rest) :
    units (piece ++ rest) = none :: units rest := by
  obtain ⟨b, others, rfl⟩ := List.exists_cons_of_ne_nil hbroken.ne_nil
  have hlong : ¬ b < 0x80 := hbroken.le_of_mem b List.mem_cons_self
  have hsingle : ¬ IsInitial (b :: others) → others = [] := by
    intro hnone
    rcases hbroken.initial with hinitial | hlength
    · exact absurd hinitial hnone
    · exact List.length_eq_zero_iff.mp (Nat.succ.inj hlength)
  rw [List.cons_append, units, if_neg hlong]
  cases hlead : lead? b with
  | none =>
      have hnone : ¬ IsInitial (b :: others) := by
        rw [isInitial_cons_iff hlong, hlead]
        simp
      rw [hsingle hnone, List.nil_append]
  | some lead =>
      have hadmits := lead.admits_run (others ++ rest) (low_le_high_of_lead? hlead).1
      have hinitial := (isInitial_cons_iff hlong).mpr ⟨lead, hlead, hadmits⟩
      -- Some sequence begins with the run, so that it cannot be longer than the broken piece.
      have hlongest := hbroken.longest _
        ((List.prefix_cons_inj b).mpr (lead.run_prefix (others ++ rest))) hinitial
      have hbegins : others <+: lead.run (others ++ rest) := by
        by_cases hbegins : IsInitial (b :: others)
        · obtain ⟨other, hother, hadmitted⟩ := (isInitial_cons_iff hlong).mp hbegins
          rw [hlead, Option.some.injEq] at hother
          exact (hother ▸ hadmitted).prefix_run (List.prefix_append others rest)
        · rw [hsingle hbegins]
          exact List.nil_prefix
      have hrun : others = lead.run (others ++ rest) :=
        hbegins.eq_of_length_le (Nat.le_of_succ_le_succ hlongest)
      have hincomplete : others.length ≠ lead.more := by
        intro hcomplete
        rw [hrun] at hcomplete
        obtain ⟨value, hsequence⟩ := exists_isSequence_of_lead? hlead hcomplete
        rw [← hrun] at hsequence
        exact hbroken.malformed _ value (List.prefix_append (b :: others) rest) hsequence
      simp only [← hrun, hincomplete, if_false, List.drop_left]

/-- The reader follows the rule, and the rule leaves no choice. -/
theorem readsLeniently_iff {bytes : Bytes} {chars : List Char} :
    ReadsLeniently bytes chars ↔ chars = (lossy bytes).toList := by
  rw [lossy, String.toList_ofList]
  constructor
  · intro hreads
    induction hreads with
    | nil => rw [units, List.map_nil]
    | char hsequence hrest ih =>
        rw [← utf8EncodeChar_of_isSequence hsequence, units_utf8EncodeChar, List.map_cons, ← ih]
        rfl
    | broken hbroken hrest ih =>
        rw [units_of_isBroken hbroken, List.map_cons, ← ih]
        rfl
  · intro hchars
    rw [hchars]
    exact readsLeniently_units bytes

/-! ## What becomes of ASCII -/

/-- The characters below `0x80`. -/
def asciiChars (chars : List Char) : List Char := chars.filter fun c => c.toNat < 0x80

/-- The bytes below `0x80`. -/
def asciiBytes (bytes : Bytes) : Bytes := bytes.filter (· < 0x80)

theorem asciiBytes_append (left right : Bytes) :
    asciiBytes (left ++ right) = asciiBytes left ++ asciiBytes right :=
  List.filter_append left right

theorem encodeChars_asciiChars_singleton (c : Char) :
    encodeChars (asciiChars [c]) = asciiBytes (String.utf8EncodeChar c) := by
  by_cases hascii : c.toNat < 0x80
  · have hchar : String.utf8EncodeChar c = [UInt8.ofNat c.toNat] := by
      rw [utf8EncodeChar_eq, if_pos (Nat.le_of_lt_succ hascii)]
    have hbyte : UInt8.ofNat c.toNat < 0x80 := by
      rw [UInt8.lt_iff_toNat_lt, UInt8.toNat_ofNat', Nat.mod_eq_of_lt (by omega)]
      exact hascii
    simp [asciiChars, asciiBytes, hascii, encodeChars, hchar, hbyte]
  · have hbytes : ∀ b ∈ String.utf8EncodeChar c, ¬ b < 0x80 := fun b hmem =>
      UInt8.not_lt.mpr (le_of_mem_utf8EncodeChar (Nat.not_lt.mp hascii) hmem)
    have hnone : asciiBytes (String.utf8EncodeChar c) = [] := by
      rw [asciiBytes, List.filter_eq_nil_iff]
      simpa using hbytes
    simp [asciiChars, hascii, hnone]

/-- The ASCII characters that are read are the ASCII bytes, in the same order. -/
theorem ReadsLeniently.encodeChars_asciiChars {bytes : Bytes} {chars : List Char}
    (hreads : ReadsLeniently bytes chars) : encodeChars (asciiChars chars) = asciiBytes bytes := by
  have hcons : ∀ (c : Char) (chars : List Char),
      encodeChars (asciiChars (c :: chars)) =
        asciiBytes (String.utf8EncodeChar c) ++ encodeChars (asciiChars chars) := by
    intro c chars
    rw [← encodeChars_asciiChars_singleton, ← encodeChars_append, asciiChars, asciiChars,
      asciiChars, ← List.filter_append, List.singleton_append]
  induction hreads with
  | nil => rfl
  | @char sequence c rest chars hsequence hrest ih =>
      rw [hcons, utf8EncodeChar_of_isSequence hsequence, ih, asciiBytes_append]
  | @broken piece rest chars hbroken hrest ih =>
      have hpiece : asciiBytes piece = [] := by
        rw [asciiBytes, List.filter_eq_nil_iff]
        simpa using hbroken.le_of_mem
      have hreplacement : asciiBytes (String.utf8EncodeChar replacement) = [] := by decide
      rw [hcons, hreplacement, List.nil_append, ih, asciiBytes_append, hpiece, List.nil_append]

end MarkupSeeds.Utf8
