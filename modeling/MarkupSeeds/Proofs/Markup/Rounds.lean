import MarkupSeeds.Proofs.Markup.Occurrence
import Mathlib.Logic.Relation

/-!
# Searches round by round

A search for a closing tag can be read as a loop over the offsets of a text that stays whole.
Each round looks for the next `<` and either ends the search or moves its offset on.  What can
go wrong in a loop goes wrong in one of its rounds: it does not move on, it leaves the text, or
it closes an element when none is open.  The rounds are therefore looked at one by one, and the
searches are shown to be the loops that are made up of them.
-/

namespace MarkupSeeds

/-- What a round of a loop comes to: the loop goes on in another state, or it is over. -/
inductive Round (State Result : Type)
  | again (next : State)
  | done (result : Result)
  deriving DecidableEq

namespace Loop

variable {State Result : Type} {round : State → Round State Result}

/-- After finitely many rounds the loop is over, with this result. -/
inductive Ends (round : State → Round State Result) : State → Result → Prop
  | done {state result} (hround : round state = .done result) : Ends round state result
  | again {state next result} (hround : round state = .again next)
      (hrest : Ends round next result) : Ends round state result

/-- The states that a loop comes to. -/
def Reaches (round : State → Round State Result) : State → State → Prop :=
  Relation.ReflTransGen fun state next => round state = .again next

/-- Each round moves the offset on, and none moves it beyond the bound. -/
def Advances (round : State → Round State Result) (offset : State → Nat) (bound : Nat) : Prop :=
  ∀ state next, round state = .again next → offset state < offset next ∧ offset next ≤ bound

/-- A loop ends alike in states that its round does not tell apart. -/
theorem Ends.congr {state other : State} {result : Result} (hsame : round state = round other)
    (hends : Ends round other result) : Ends round state result := by
  cases hends with
  | done hround => exact .done (hsame.trans hround)
  | again hround hrest => exact .again (hsame.trans hround) hrest

/-- What holds at first and is kept by every round holds in all states that a loop comes to. -/
theorem Reaches.preserves {P : State → Prop} {state final : State}
    (hreaches : Reaches round state final) (hstate : P state)
    (hkeeps : ∀ state next, P state → round state = .again next → P next) : P final := by
  induction hreaches with
  | refl => exact hstate
  | tail _ hround ih => exact hkeeps _ _ ih hround

end Loop

namespace Markup

open Loop

section Next

variable {bytes tail : Bytes} {pos start : Nat} {b : UInt8}

/-- The first `<` at or after an offset. -/
def ltFrom? (bytes : Bytes) (pos : Nat) : Option Nat :=
  ((bytes.drop pos).findIdx? (· == lt)).map (pos + ·)

theorem ltFrom?_of_drop_eq_nil (hdrop : bytes.drop pos = []) : ltFrom? bytes pos = none := by
  rw [ltFrom?, hdrop]
  rfl

theorem ltFrom?_of_lt (hdrop : bytes.drop pos = lt :: tail) : ltFrom? bytes pos = some pos := by
  rw [ltFrom?, hdrop, List.findIdx?_cons]
  rfl

theorem ltFrom?_of_ne (hdrop : bytes.drop pos = b :: tail) (hb : b ≠ lt) :
    ltFrom? bytes pos = ltFrom? bytes (pos + 1) := by
  have hskip : (b == lt) = false := beq_false_of_ne hb
  have hrest : bytes.drop (pos + 1) = tail := drop_succ_of_drop_eq_cons hdrop 0
  rw [ltFrom?, ltFrom?, hdrop, hrest, List.findIdx?_cons, hskip, if_neg Bool.false_ne_true,
    Option.map_map]
  congr 1
  funext n
  exact Nat.add_right_comm pos n 1

theorem bounds_of_ltFrom? (hstart : ltFrom? bytes pos = some start) :
    pos ≤ start ∧ start < bytes.length := by
  obtain ⟨index, hindex, rfl⟩ := Option.map_eq_some_iff.mp hstart
  obtain ⟨hbound, -⟩ := List.findIdx?_eq_some_iff_getElem.mp hindex
  rw [List.length_drop] at hbound
  omega

/-- The end of what stands at an offset or behind it lies further on in the text. -/
theorem Bracketed.leads_on {P : Bytes → Prop} {stop : Nat} (hP : Bracketed P)
    (hoccurs : Occurs P bytes start stop) (hle : pos ≤ start) :
    pos < stop ∧ stop ≤ bytes.length :=
  ⟨Nat.lt_of_le_of_lt hle (hP.start_lt_stop hoccurs), hP.stop_le_length hoccurs⟩

end Next

/-! ## The nearest rule -/

/-- One round of the search for the nearest closing tag. -/
def nearestRound (names : List Bytes) (bytes : Bytes) (pos : Nat) : Round Nat (Option Nat) :=
  match ltFrom? bytes pos with
  | none => .done none
  | some start =>
    match closingAt? false names bytes start with
    | some stop => .done (some stop)
    | none => .again (start + 1)

/-- The search is the loop. -/
theorem ends_nearestClose? {names : List Bytes} {bytes rest : Bytes} {pos : Nat}
    (hrest : bytes.drop pos = rest) :
    Ends (nearestRound names bytes) pos (nearestClose? names pos rest) := by
  fun_induction nearestClose? names pos rest with
  | case1 pos =>
      apply Ends.done
      rw [nearestRound, ltFrom?_of_drop_eq_nil hrest]
  | case2 pos tail n hn =>
      apply Ends.done
      simp only [nearestRound, ltFrom?_of_lt hrest, closingAt?, hrest, if_true, hn, Option.map_some]
  | case3 pos tail hnone ih =>
      refine Ends.again ?_ (ih (drop_succ_of_drop_eq_cons hrest 0))
      simp only [nearestRound, ltFrom?_of_lt hrest, closingAt?, hrest, if_true, hnone,
        Option.map_none]
  | case4 pos b tail hb ih =>
      -- The search looks at every byte, the loop at every `<`: here they wait for the same one.
      refine Ends.congr ?_ (ih (drop_succ_of_drop_eq_cons hrest 0))
      rw [nearestRound, nearestRound, ltFrom?_of_ne hrest hb]

theorem advances_nearestRound (names : List Bytes) (bytes : Bytes) :
    Advances (nearestRound names bytes) id bytes.length := by
  intro pos next hround
  rw [nearestRound] at hround
  split at hround
  · cases hround
  · rename_i start hstart
    have hbounds := bounds_of_ltFrom? hstart
    split at hround
    · cases hround
    · cases hround
      exact ⟨Nat.lt_succ_of_le hbounds.1, hbounds.2⟩

/-! ## The balanced rule -/

/-- Where a balanced search stands: the number of elements that are open, and the offset at which
it goes on. -/
structure Balancing where
  depth : Nat
  pos : Nat
  deriving DecidableEq

/-- One round of the balanced search. -/
def balancedRound (name : Bytes) (limit : Option Nat) (bytes : Bytes) (state : Balancing) :
    Round Balancing (Option Nat) :=
  match ltFrom? bytes state.pos with
  | none => .done none
  | some start =>
    if limit.any (· ≤ start) then .done none
    else
      match closingAt? true [name] bytes start with
      | some stop =>
        if state.depth ≤ 1 then .done (some stop |>.filter fun stop => limit.all (stop ≤ ·))
        else .again ⟨state.depth - 1, stop⟩
      | none =>
        match openingAt? [name] bytes start with
        | some tag => .again ⟨state.depth + 1, start + 1 + tag.length⟩
        | none => .again ⟨state.depth, start + 1⟩

section Balanced

variable {name bytes rest : Bytes} {limit : Option Nat}

/-- The search is the loop. -/
theorem ends_balancedClose? {depth pos : Nat} (hrest : bytes.drop pos = rest) :
    Ends (balancedRound name limit bytes) ⟨depth, pos⟩
      (balancedClose? name limit depth pos rest) := by
  fun_induction balancedClose? name limit depth pos rest with
  | case1 depth pos =>
      apply Ends.done
      simp only [balancedRound, ltFrom?_of_drop_eq_nil hrest]
  | case2 depth pos tail hlimit =>
      apply Ends.done
      simp only [balancedRound, ltFrom?_of_lt hrest, hlimit, if_true]
  | case3 depth pos tail hlimit n hn hlast =>
      apply Ends.done
      simp only [balancedRound, ltFrom?_of_lt hrest, hlimit, closingAt?, hrest, if_true,
        List.findSome?_singleton, hn, Option.map_some, hlast]
      rfl
  | case4 depth pos tail hlimit n hn hinner ih =>
      refine Ends.again ?_ (ih (drop_succ_of_drop_eq_cons hrest n))
      simp only [balancedRound, ltFrom?_of_lt hrest, hlimit, closingAt?, hrest, if_true,
        List.findSome?_singleton, hn, Option.map_some, hinner]
      rfl
  | case5 depth pos tail hlimit hn tag htag ih =>
      refine Ends.again ?_ (ih (drop_succ_of_drop_eq_cons hrest tag.length))
      simp only [balancedRound, ltFrom?_of_lt hrest, hlimit, closingAt?, openingAt?, hrest, if_true,
        List.findSome?_singleton, hn, Option.map_none, htag]
      rfl
  | case6 depth pos tail hlimit hn htag ih =>
      refine Ends.again ?_ (ih (drop_succ_of_drop_eq_cons hrest 0))
      simp only [balancedRound, ltFrom?_of_lt hrest, hlimit, closingAt?, openingAt?, hrest, if_true,
        List.findSome?_singleton, hn, Option.map_none, htag]
      rfl
  | case7 depth pos b tail hb ih =>
      refine Ends.congr ?_ (ih (drop_succ_of_drop_eq_cons hrest 0))
      simp only [balancedRound, ltFrom?_of_ne hrest hb]

/-- What a round can do that does not end the search. -/
inductive Moves (name bytes : Bytes) (start : Nat) (state : Balancing) : Balancing → Prop
  /-- A closing tag, but not that of the outermost element. -/
  | closes {stop} (hclosing : closingAt? true [name] bytes start = some stop)
      (hdepth : 1 < state.depth) : Moves name bytes start state ⟨state.depth - 1, stop⟩
  | opens {tag} (hopening : openingAt? [name] bytes start = some tag) :
      Moves name bytes start state ⟨state.depth + 1, start + 1 + tag.length⟩
  | skips : Moves name bytes start state ⟨state.depth, start + 1⟩

theorem moves_of_balancedRound {state next : Balancing}
    (hround : balancedRound name limit bytes state = .again next) :
    ∃ start, ltFrom? bytes state.pos = some start ∧ Moves name bytes start state next := by
  rw [balancedRound] at hround
  split at hround
  · cases hround
  rename_i start hstart
  refine ⟨start, hstart, ?_⟩
  split at hround
  · cases hround
  split at hround
  · rename_i stop hclosing
    split at hround
    · cases hround
    · rename_i hdepth
      cases hround
      exact .closes hclosing (Nat.not_le.mp hdepth)
  · split at hround
    · rename_i tag hopening
      cases hround
      exact .opens hopening
    · cases hround
      exact .skips

theorem advances_balancedRound (hlabel : IsLabel name) (limit : Option Nat) (bytes : Bytes) :
    Advances (balancedRound name limit bytes) Balancing.pos bytes.length := by
  intro state next hround
  obtain ⟨start, hstart, hmoves⟩ := moves_of_balancedRound hround
  obtain ⟨hle, hlt⟩ := bounds_of_ltFrom? hstart
  cases hmoves with
  | @closes stop hclosing =>
      have hoccurs := (closingAt?_eq_some_iff (List.forall_mem_singleton.mpr hlabel)).mp hclosing
      exact (bracketed_isClosingOf true [name]).leads_on hoccurs hle
  | @opens tag hopening =>
      have hoccurs := (occurs_of_openingAt? hopening).2
      exact (bracketed_isOpening tag.name).leads_on hoccurs hle
  | skips => exact ⟨Nat.lt_succ_of_le hle, hlt⟩

/-- The outermost element stays open until the search is over. -/
theorem depth_pos_of_reaches {pos : Nat} {state : Balancing}
    (hreaches : Reaches (balancedRound name limit bytes) ⟨1, pos⟩ state) : 1 ≤ state.depth := by
  refine hreaches.preserves (P := fun state => 1 ≤ state.depth) (Nat.le_refl 1) ?_
  intro state next hdepth hround
  obtain ⟨start, -, hmoves⟩ := moves_of_balancedRound hround
  cases hmoves with
  | closes hclosing hopen => exact Nat.le_sub_one_of_lt hopen
  | opens hopening => exact Nat.le_add_left ..
  | skips => exact hdepth

end Balanced

end Markup

end MarkupSeeds
