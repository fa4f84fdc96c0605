import MarkupSeeds.Proofs.Markup.Balance

/-!
# Reading tag by tag

`Reading` goes through bytes from left to right and notes the tags of one name:
at each `<` a closing tag, otherwise an opening tag, and one byte further where
neither begins.  There is only one way to do so.  The depth is the running count
of the opening tags less the closing ones, and balanced bytes are those in which
it stays positive until their last tag brings it back to zero.
-/

namespace MarkupSeeds.Markup

inductive Turn
  | opens
  | closes
  deriving DecidableEq, Repr

/-- What a tag adds to the depth. -/
def Turn.change : Turn → Int
  | opens => 1
  | closes => -1

/-- A tag that was read, with the offset just past its `>`. -/
structure Token where
  turn : Turn
  stop : Nat
  deriving DecidableEq, Repr

/-- The depth after some tags, on top of the depth before them. -/
def depthAfter (depth : Int) : List Token → Int
  | [] => depth
  | token :: tokens => depthAfter (depth + token.turn.change) tokens

/-- The tags of a name in bytes that begin at offset `pos`. -/
inductive Reading (name : Bytes) : Nat → Bytes → List Token → Prop
  | done {pos} : Reading name pos [] []
  | closing {pos tag rest tokens} (hclosing : IsClosing true name tag)
      (hrest : Reading name (pos + tag.length) rest tokens) :
      Reading name pos (tag ++ rest) (⟨.closes, pos + tag.length⟩ :: tokens)
  | opening {pos tag rest tokens} (hnotClosing : ¬ StartsWith (IsClosing true name) (tag ++ rest))
      (hopening : IsOpening name tag) (hrest : Reading name (pos + tag.length) rest tokens) :
      Reading name pos (tag ++ rest) (⟨.opens, pos + tag.length⟩ :: tokens)
  | skip {pos b rest tokens} (hnotClosing : ¬ StartsWith (IsClosing true name) (b :: rest))
      (hnotOpening : ¬ StartsWith (IsOpening name) (b :: rest))
      (hrest : Reading name (pos + 1) rest tokens) : Reading name pos (b :: rest) tokens

/-! ## Only one reading -/

/-- Tags that both end at the first `>` of the same bytes are equal. -/
theorem eq_of_throughGt? {left right leftRest rightRest : Bytes}
    (hleft : throughGt? (left ++ leftRest) = some left.length)
    (hright : throughGt? (right ++ rightRest) = some right.length)
    (heq : left ++ leftRest = right ++ rightRest) : left = right ∧ leftRest = rightRest := by
  have hlength : left.length = right.length := by
    rw [heq, hright, Option.some.injEq] at hleft
    exact hleft.symm
  exact List.append_inj heq hlength

theorem Reading.eq_nil {name : Bytes} {pos : Nat} {tokens : List Token}
    (hreading : Reading name pos [] tokens) : tokens = [] := by
  generalize hbytes : ([] : Bytes) = bytes at hreading
  cases hreading with
  | done => rfl
  | closing hclosing hrest =>
      obtain ⟨word, blanks, rfl, -⟩ := hclosing
      cases hbytes
  | opening hnotClosing hopening hrest =>
      obtain ⟨word, attributes, rfl, -⟩ := hopening
      cases hbytes
  | skip hnotClosing hnotOpening hrest => cases hbytes

theorem Reading.of_closing {name tag rest : Bytes} {pos : Nat} {tokens : List Token}
    (hlabel : IsLabel name) (hclosing : IsClosing true name tag)
    (hreading : Reading name pos (tag ++ rest) tokens) :
    ∃ others, tokens = ⟨.closes, pos + tag.length⟩ :: others ∧
      Reading name (pos + tag.length) rest others := by
  have hstarts : StartsWith (IsClosing true name) (tag ++ rest) :=
    ⟨tag, List.prefix_append tag rest, hclosing⟩
  generalize hbytes : tag ++ rest = bytes at hreading hstarts
  cases hreading with
  | done =>
      obtain ⟨word, blanks, rfl, -⟩ := hclosing
      cases hbytes
  | closing hother hrest =>
      obtain ⟨rfl, rfl⟩ := eq_of_throughGt? (hclosing.throughGt?_append hlabel _)
        (hother.throughGt?_append hlabel _) hbytes
      exact ⟨_, rfl, hrest⟩
  | opening hnotClosing => exact absurd hstarts hnotClosing
  | skip hnotClosing => exact absurd hstarts hnotClosing

theorem Reading.of_opening {name tag rest : Bytes} {pos : Nat} {tokens : List Token}
    (hlabel : IsLabel name) (hnone : ¬ StartsWith (IsClosing true name) (tag ++ rest))
    (hopening : IsOpening name tag) (hreading : Reading name pos (tag ++ rest) tokens) :
    ∃ others, tokens = ⟨.opens, pos + tag.length⟩ :: others ∧
      Reading name (pos + tag.length) rest others := by
  have hstarts : StartsWith (IsOpening name) (tag ++ rest) :=
    ⟨tag, List.prefix_append tag rest, hopening⟩
  generalize hbytes : tag ++ rest = bytes at hreading hstarts hnone
  cases hreading with
  | done =>
      obtain ⟨word, attributes, rfl, -⟩ := hopening
      cases hbytes
  | closing hother => exact absurd ⟨_, List.prefix_append _ _, hother⟩ hnone
  | opening hnotClosing hother hrest =>
      obtain ⟨rfl, rfl⟩ := eq_of_throughGt? (hopening.throughGt?_append hlabel _)
        (hother.throughGt?_append hlabel _) hbytes
      exact ⟨_, rfl, hrest⟩
  | skip hnotClosing hnotOpening => exact absurd hstarts hnotOpening

theorem Reading.of_skip {name rest : Bytes} {b : UInt8} {pos : Nat} {tokens : List Token}
    (hnotClosing : ¬ StartsWith (IsClosing true name) (b :: rest))
    (hnotOpening : ¬ StartsWith (IsOpening name) (b :: rest))
    (hreading : Reading name pos (b :: rest) tokens) : Reading name (pos + 1) rest tokens := by
  generalize hbytes : b :: rest = bytes at hreading hnotClosing hnotOpening
  cases hreading with
  | done => cases hbytes
  | closing hother => exact absurd ⟨_, List.prefix_append _ _, hother⟩ hnotClosing
  | opening _ hother => exact absurd ⟨_, List.prefix_append _ _, hother⟩ hnotOpening
  | skip _ _ hrest =>
      cases hbytes
      exact hrest

theorem Reading.unique {name bytes : Bytes} {pos : Nat} {tokens others : List Token}
    (hlabel : IsLabel name) (hreading : Reading name pos bytes tokens)
    (hother : Reading name pos bytes others) : others = tokens := by
  induction hreading generalizing others with
  | done => exact hother.eq_nil
  | closing hclosing hrest ih =>
      obtain ⟨more, rfl, hmore⟩ := hother.of_closing hlabel hclosing
      rw [ih hmore]
  | opening hnotClosing hopening hrest ih =>
      obtain ⟨more, rfl, hmore⟩ := hother.of_opening hlabel hnotClosing hopening
      rw [ih hmore]
  | skip hnotClosing hnotOpening hrest ih => exact ih (hother.of_skip hnotClosing hnotOpening)

/-! ## The depth in balanced bytes -/

/-- The depth stays positive over the tokens, and a closing tag that ends at `stop`
brings it back to zero. -/
structure Falls (depth : Int) (tokens : List Token) (stop : Nat) : Prop where
  positive : ∀ front, front <+: tokens → 1 ≤ depthAfter depth front
  zero : depthAfter depth (tokens ++ [⟨.closes, stop⟩]) = 0

theorem Falls.cons {depth : Int} {token : Token} {tokens : List Token} {stop : Nat}
    (hdepth : 1 ≤ depth) (hrest : Falls (depth + token.turn.change) tokens stop) :
    Falls depth (token :: tokens) stop where
  positive front hfront := by
    rcases List.prefix_cons_iff.mp hfront with rfl | ⟨more, rfl, hmore⟩
    · exact hdepth
    · exact hrest.positive more hmore
  zero := hrest.zero

theorem Balances.exists_reading {name bytes : Bytes} {depth : Nat}
    (hbalances : Balances name depth bytes) (hdepth : 1 ≤ depth) (pos : Nat) :
    ∃ tokens, Reading name pos bytes (tokens ++ [⟨.closes, pos + bytes.length⟩]) ∧
      Falls depth tokens (pos + bytes.length) := by
  induction hbalances generalizing pos with
  | @last tag hclosing =>
      have hreading : Reading name pos (tag ++ []) [⟨.closes, pos + tag.length⟩] :=
        .closing hclosing .done
      rw [List.append_nil] at hreading
      refine ⟨[], hreading, ?_, rfl⟩
      intro front hfront
      rw [List.prefix_nil.mp hfront]
      exact Int.le_refl 1
  | @closes depth tag rest hclosing hrest ih =>
      obtain ⟨tokens, hreading, hfalls⟩ := ih (by omega) (pos + tag.length)
      rw [Nat.add_assoc, ← List.length_append] at hreading hfalls
      have hchange : ((depth + 1 : Nat) : Int) = (depth + 2 : Nat) + Turn.closes.change := by
        rw [Turn.change]
        omega
      rw [hchange] at hfalls
      exact ⟨_ :: tokens, .closing hclosing hreading, .cons (by omega) hfalls⟩
  | @opens depth tag rest hnotClosing hopening hrest ih =>
      obtain ⟨tokens, hreading, hfalls⟩ := ih (by omega) (pos + tag.length)
      rw [Nat.add_assoc, ← List.length_append] at hreading hfalls
      exact ⟨_ :: tokens, .opening hnotClosing hopening hreading, .cons (by omega) hfalls⟩
  | @skips depth b rest hnotClosing hnotOpening hrest ih =>
      obtain ⟨tokens, hreading, hfalls⟩ := ih hdepth (pos + 1)
      rw [Nat.add_assoc, Nat.add_comm 1, ← List.length_cons] at hreading hfalls
      exact ⟨tokens, .skip hnotClosing hnotOpening hreading, hfalls⟩

/-- The tags of a name bring the depth, which is zero before the first of them, back to
zero with the last, a closing tag at the very end, and at no tag before. -/
def ReadsBalanced (name bytes : Bytes) : Prop :=
  ∃ tokens, (∀ others, Reading name 0 bytes others ↔
      others = tokens ++ [⟨.closes, bytes.length⟩]) ∧
    (∀ front, front <+: tokens → front ≠ [] → 1 ≤ depthAfter 0 front) ∧
    depthAfter 0 (tokens ++ [⟨.closes, bytes.length⟩]) = 0

/-- An opening tag and what closes it. -/
theorem readsBalanced_append {name tag bytes : Bytes} (hlabel : IsLabel name)
    (hopening : IsOpening name tag) (hbalances : Balances name 1 bytes) :
    ReadsBalanced name (tag ++ bytes) := by
  obtain ⟨tokens, hreading, hfalls⟩ := hbalances.exists_reading (Nat.le_refl 1) (0 + tag.length)
  rw [Nat.add_assoc, ← List.length_append, Nat.zero_add (tag ++ bytes).length] at hreading hfalls
  have hwhole := Reading.opening (hopening.not_startsWith_closing hlabel bytes) hopening hreading
  refine ⟨⟨.opens, 0 + tag.length⟩ :: tokens, fun others => ?_, ?_, hfalls.zero⟩
  · constructor
    · intro hothers
      exact hwhole.unique hlabel hothers
    · intro heq
      rw [heq]
      exact hwhole
  · intro front hfront hne
    rcases List.prefix_cons_iff.mp hfront with rfl | ⟨more, rfl, hmore⟩
    · exact absurd rfl hne
    · exact hfalls.positive more hmore

end MarkupSeeds.Markup
