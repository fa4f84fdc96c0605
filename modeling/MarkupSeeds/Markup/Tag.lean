import MarkupSeeds.Text.Utf8

/-!
# Tags

Tags are recognised by their bytes alone, in text that need not be well formed.
The recognisers look at what follows a `<` and report how many bytes of it belong
to the tag, its `>` included.  Names are compared without regard to ASCII case.
-/

namespace MarkupSeeds.Markup

/-- The byte `<`. -/
abbrev lt : UInt8 := 0x3C

/-- The byte `>`. -/
abbrev gt : UInt8 := 0x3E

/-- The byte `/`. -/
abbrev slash : UInt8 := 0x2F

/-- Space, tab, line feed, form feed and carriage return. -/
def isBlank (b : UInt8) : Bool := b == 0x20 || b == 0x09 || b == 0x0A || b == 0x0C || b == 0x0D

/-- The bytes that may stand directly after the name of an opening tag. -/
def isBoundary (b : UInt8) : Bool := b == gt || b == slash || isBlank b

def lower (b : UInt8) : UInt8 := if 0x41 ≤ b ∧ b ≤ 0x5A then b + 0x20 else b

/-- What follows `name` at the head of the bytes. -/
def afterName? : Bytes → Bytes → Option Bytes
  | [], rest => some rest
  | _ :: _, [] => none
  | n :: name, b :: rest => if lower n = lower b then afterName? name rest else none

/-- What follows the name of an opening tag, the boundary byte included. -/
def attributes? (name tail : Bytes) : Option Bytes :=
  match afterName? name tail with
  | some (b :: rest) => if isBoundary b then some (b :: rest) else none
  | _ => none

/-- The number of bytes up to and including the first `>`. -/
def throughGt? (bytes : Bytes) : Option Nat := (bytes.findIdx? (· == gt)).map (· + 1)

/-- A recognised opening tag. -/
structure Opening where
  /-- The name it was recognised by, as the caller spells it. -/
  name : Bytes
  /-- The number of bytes after `<`. -/
  length : Nat
  deriving DecidableEq, Repr

/-- The opening tag that continues a `<` with `tail`, for the first of the names
that fits. -/
def opening? (names : List Bytes) (tail : Bytes) : Option Opening := do
  let (name, rest) ← names.findSome? fun name => (attributes? name tail).map (name, ·)
  let through ← throughGt? rest
  return ⟨name, name.length + through⟩

/-- The number of blanks that are allowed between name and `>`. -/
def gap (spaced : Bool) (rest : Bytes) : Nat :=
  if spaced then (rest.takeWhile isBlank).length else 0

/-- The length of the closing tag of `name` that continues a `<` with `tail`.  With
`spaced`, blanks may stand before its `>`. -/
def closing? (spaced : Bool) (name : Bytes) : Bytes → Option Nat
  | [] => none
  | b :: tail =>
    if b = slash then
      match afterName? name tail with
      | none => none
      | some rest =>
        if (rest.drop (gap spaced rest)).head? = some gt then
          some (1 + name.length + gap spaced rest + 1)
        else none
    else none

end MarkupSeeds.Markup
