import Mathlib.Data.Set.Card
import MarkupSeeds.Extractor
import MarkupSeeds.Proofs.Corpus.Members

/-!
# Histories of a corpus

Whatever has been done to a corpus, it holds the texts that were given to it since it was last
collected anew, each once and in ascending order.  Nothing else about its history shows in it.
-/

namespace MarkupSeeds.Corpus

inductive Operation
  | insert (text : String)
  | extend (texts : List String)
  /-- The corpus is replaced by one collected from some texts. -/
  | collect (texts : List String)
  /-- The corpus is extended with the snippets of a text. -/
  | extract (e : Extractor) (text : String)

/-- The texts that an operation gives to the corpus. -/
def Operation.texts : Operation → List String
  | insert text => [text]
  | extend texts => texts
  | collect texts => texts
  | extract e text => e.extract text

def Operation.startsAnew : Operation → Bool
  | collect _ => true
  | _ => false

def perform (c : Corpus) : Operation → Corpus
  | .insert text => c.insert text
  | .extend texts => c.extend texts
  | .collect texts => ofList texts
  | .extract e text => c.extend (e.extract text)

/-- The corpus after some operations on an empty one. -/
def after (history : List Operation) : Corpus := history.foldl perform empty

/-- A text was given by the last collection or since. -/
def Given (history : List Operation) (text : String) : Prop :=
  ∃ earlier op later, history = earlier ++ op :: later ∧ text ∈ op.texts ∧
    ∀ o ∈ later, o.startsAnew = false

theorem not_given_nil (text : String) : ¬ Given [] text := by
  rintro ⟨earlier, op, later, hsplit, -⟩
  exact List.cons_ne_nil _ _ (List.append_eq_nil_iff.mp hsplit.symm).2

theorem given_cons_iff {op : Operation} {history : List Operation} {text : String} :
    Given (op :: history) text ↔
      Given history text ∨ text ∈ op.texts ∧ ∀ o ∈ history, o.startsAnew = false := by
  constructor
  · rintro ⟨earlier, o, later, hsplit, hmem, hlater⟩
    cases earlier with
    | nil =>
        cases hsplit
        exact Or.inr ⟨hmem, hlater⟩
    | cons first earlier =>
        cases hsplit
        exact Or.inl ⟨earlier, o, later, rfl, hmem, hlater⟩
  · rintro (⟨earlier, o, later, rfl, hmem, hlater⟩ | ⟨hmem, hlater⟩)
    · exact ⟨op :: earlier, o, later, rfl, hmem, hlater⟩
    · exact ⟨[], op, history, rfl, hmem, hlater⟩

/-- One operation adds the texts that it gives, and drops all others if it starts anew. -/
theorem mem_perform_iff {c : Corpus} {op : Operation} {t : String} :
    t ∈ (c.perform op).texts ↔ t ∈ op.texts ∨ op.startsAnew = false ∧ t ∈ c.texts := by
  cases op with
  | insert text => simp [perform, mem_insert, Operation.texts, Operation.startsAnew]
  | extend texts => simp [perform, mem_extend, Operation.texts, Operation.startsAnew, or_comm]
  | collect texts => simp [perform, mem_ofList, Operation.texts, Operation.startsAnew]
  | extract e text => simp [perform, mem_extend, Operation.texts, Operation.startsAnew, or_comm]

/-- The members that a corpus has had before stay until it is collected anew. -/
theorem mem_foldl_perform_iff {c : Corpus} {history : List Operation} {t : String} :
    t ∈ (history.foldl perform c).texts ↔
      Given history t ∨ (∀ o ∈ history, o.startsAnew = false) ∧ t ∈ c.texts := by
  induction history generalizing c with
  | nil => simp [not_given_nil]
  | cons op history ih =>
      rw [List.foldl_cons, ih, mem_perform_iff, given_cons_iff, List.forall_mem_cons]
      tauto

theorem mem_after_iff {history : List Operation} {t : String} :
    t ∈ (after history).texts ↔ Given history t := by
  rw [after, mem_foldl_perform_iff]
  exact or_iff_left fun hempty => List.not_mem_nil hempty.2

theorem encard_setOf_mem {texts : List String} (hnodup : texts.Nodup) :
    {t | t ∈ texts}.encard = texts.length := by
  rw [← List.coe_toFinset, Set.encard_coe_eq_coe_finsetCard, List.toFinset_card_of_nodup hnodup]

/-- After any history the texts given since the last collection are listed once each, in ascending
order.  Each is at the position that its predecessors leave for it, and another history that gives
the same texts ends in the same corpus. -/
theorem after_is_sorted_set (history : List Operation) :
    let c := after history
    c.texts.Pairwise (· < ·) ∧
      (∀ t, t ∈ c.texts ↔ Given history t) ∧
      (c.size : ℕ∞) = {t | Given history t}.encard ∧
      (∀ t, c.contains t ↔ Given history t) ∧
      (∀ (index : Nat) (t : String), c.at? index = some t ↔
        Given history t ∧ {u | Given history u ∧ u < t}.encard = index) ∧
      (∀ t, (c.insert? t).isSome ↔ ¬ Given history t) ∧
      (∀ other, (∀ t, Given other t ↔ Given history t) → after other = c) ∧
      c.perform (.collect c.texts) = c ∧
      ∀ texts ⊆ c.texts, c.perform (.extend texts) = c := by
  intro c
  have hmem : ∀ t, t ∈ c.texts ↔ Given history t := fun t => mem_after_iff
  refine ⟨c.ascending, hmem, ?_, ?_, ?_, ?_, ?_, ?_, ?_⟩
  · simp only [← hmem]
    exact (encard_setOf_mem c.nodup_texts).symm
  · intro t
    rw [contains, List.contains_iff_mem, hmem]
  · intro index t
    have hsmaller : {u | Given history u ∧ u < t} = {u | u ∈ c.texts.filter (· < t)} := by
      ext u
      simp [← hmem]
    rw [at?, Sorted.getElem?_eq_some_iff c.ascending, hmem, hsmaller,
      encard_setOf_mem (c.nodup_texts.filter _), Nat.cast_inj]
  · intro t
    rw [← hmem, ← insert?_eq_none_iff, Option.isSome_iff_ne_none]
  · intro other hsame
    apply eq_of_mem_iff
    intro t
    rw [mem_after_iff, hsame, hmem]
  · apply eq_of_mem_iff
    intro t
    rw [perform, mem_ofList]
  · intro texts hsubset
    apply eq_of_mem_iff
    intro t
    rw [perform, mem_extend]
    exact or_iff_left_of_imp fun hgiven => hsubset hgiven

/-- Texts that come in another order and more than once, in place of one that is forgotten. -/
theorem after_is_sorted_set_of_two_histories :
    let history : List Operation :=
      [.insert "<p>old text</p>", .collect ["<p>two</p>", "<b>one</b>"], .insert "<b>one</b>",
        .extract {} "<p>Hello</p>"]
    let other : List Operation :=
      [.collect ["<p>Hello</p>"], .extend ["<b>one</b>", "<p>two</p>", "<b>one</b>"]]
    after other = after history ∧
      (after history).perform (.extend ["<p>two</p>", "<p>Hello</p>"]) = after history ∧
      ((after history).at? 1 = some "<p>Hello</p>" ↔
        Given history "<p>Hello</p>" ∧
          {u | Given history u ∧ u < "<p>Hello</p>"}.encard = (1 : Nat)) := by
  intro history other
  have hextract : ({} : Extractor).extract "<p>Hello</p>" = ["<p>Hello</p>"] := by decide +kernel
  have hsame : ∀ t, Given other t ↔ Given history t := by
    intro t
    simp [history, other, given_cons_iff, not_given_nil, Operation.texts, Operation.startsAnew,
      hextract]
    tauto
  obtain ⟨-, -, -, -, hposition, -, hother, -, hmembers⟩ := after_is_sorted_set history
  exact ⟨hother other hsame, hmembers _ (by decide +kernel), hposition 1 _⟩

end MarkupSeeds.Corpus
