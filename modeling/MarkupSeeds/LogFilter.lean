import MarkupSeeds.Notice
import MarkupSeeds.Size
import MarkupSeeds.Text.Split

/-!
# Filtering notices

A filter is a list of directives separated by commas.  A directive is a level, which
applies to all notices, or a target with or without a level, which applies to the
notices whose source has a target that begins so.  A target may be followed by a list
of fields; a notice has the one field `message`.  The most specific of the directives
that apply to a notice decides, and a notice that none applies to is not shown.
-/

namespace MarkupSeeds

structure Directive where
  target : Option String
  fields : List String
  /-- The rank of the least severe level that is shown, zero for none. -/
  rank : Nat
  deriving DecidableEq, Repr

namespace Directive

/-- The rank of a level given by number or by name.  An empty text stands for errors. -/
def rank? (text : List Char) : Option Nat :=
  match (Size.ofText? (String.ofList text)).filter (· ≤ 5) with
  | some rank => some rank
  | none =>
    match String.ofList (text.map Char.toLower) with
    | "" => some 1
    | "error" => some 1
    | "warn" => some 2
    | "info" => some 3
    | "debug" => some 4
    | "trace" => some 5
    | "off" => some 0
    | _ => none

/-- What precedes and what follows the first opening of a list of fields. -/
def cutFields? : List Char → Option (List Char × List Char)
  | [] => none
  | '[' :: '\x7b' :: rest => some ([], rest)
  | c :: rest => (cutFields? rest).map fun (before, after) => (c :: before, after)

/-- Drops the closings of a list of fields from the end, given backwards. -/
def dropClosings : List Char → List Char
  | ']' :: '\x7d' :: rest => dropClosings rest
  | rest => rest

/-- The fields of a list of which the opening has been read. -/
def fields? (text : List Char) : Option (List String) :=
  let reversed := text.reverse
  if [']', '\x7d'].isPrefixOf reversed then
    let field := (dropClosings reversed).reverse
    some (if field.isEmpty then [] else [String.ofList field])
  else none

/-- A target with the fields that follow it. -/
def selector? (text : List Char) : Option (String × List String) :=
  match cutFields? text with
  | none => some (String.ofList text, [])
  | some (target, rest) =>
    match cutFields? rest with
    | some _ => none
    | none => (fields? rest).map (String.ofList target, ·)

def ofText? (text : List Char) : Option Directive :=
  match splitAt '=' text with
  | [only] =>
    match rank? only with
    | some rank => some ⟨none, [], rank⟩
    | none => some ⟨some (String.ofList only), [], Level.trace.rank⟩
  | [selector, level] => do
    let (target, fields) ← selector? selector
    let rank ← rank? level
    return ⟨some target, fields, rank⟩
  | _ => none

def applies (d : Directive) (source : Source) : Bool :=
  (d.target.all fun target => target.toList.isPrefixOf source.target.toList)
    && d.fields.all (· == "message")

/-- A directive with a target is more specific than one without, a longer target more
than a shorter one, and of two with the same target the one with more fields. -/
def lessSpecific (d e : Directive) : Bool :=
  match d.target, e.target with
  | none, some _ => true
  | some _, none => false
  | none, none => d.fields.length < e.fields.length
  | some s, some t =>
    s.length < t.length || (s.length == t.length && d.fields.length < e.fields.length)

end Directive

structure LogFilter where
  directives : List Directive
  deriving DecidableEq, Repr

namespace LogFilter

/-- Shows everything down to a level. -/
def downTo (level : Level) : LogFilter := ⟨[⟨none, [], level.rank⟩]⟩

def ofText? (text : String) : Option LogFilter := do
  let directives ← (splitAt ',' text.toList).mapM Directive.ofText?
  return ⟨directives⟩

/-- The filter that a setting asks for.  One that is absent or cannot be read shows
everything down to `info`. -/
def ofSetting (setting : Option String) : LogFilter :=
  (setting.bind ofText?).getD (downTo .info)

/-- The directive that decides about a source.  Of two that are equally specific the
later one counts. -/
def decisive? (f : LogFilter) (source : Source) : Option Directive :=
  (f.directives.filter (·.applies source)).foldl (fun best d =>
    match best with
    | some b => if d.lessSpecific b then some b else some d
    | none => some d) none

def shows (f : LogFilter) (notice : Notice) : Bool :=
  (f.decisive? notice.source).any (notice.level.rank ≤ ·.rank)

end LogFilter

end MarkupSeeds
