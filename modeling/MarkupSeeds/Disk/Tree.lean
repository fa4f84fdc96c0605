import MarkupSeeds.Disk.Path
import MarkupSeeds.Text.Sorted
import MarkupSeeds.Text.Utf8

/-!
# The disk

A disk maps locations to files and directories.  A location is the list of names on
the way down from the root, which is a directory that is always there.  Whatever is on
the disk lies in a directory and has a proper name, and changes of the disk keep it so.

A directory may refuse changes, as one does that is read-only, full, or kept by the
system for itself.  Symbolic links and special files are left out: for a link the disk
has what the link leads to.
-/

namespace MarkupSeeds

inductive Node
  /-- A file without content is one that is there but cannot be read. -/
  | file (content : Option Bytes)
  | directory
  deriving DecidableEq, Repr

abbrev Location := List String

/-- A name cannot contain the character that separates names in a path, and it is none of
the segments that stay in a directory or leave it. -/
def IsName (name : String) : Prop :=
  '/' ∉ name.toList ∧ name ≠ "" ∧ name ≠ "." ∧ name ≠ ".."

instance : DecidablePred IsName := fun name =>
  inferInstanceAs (Decidable ('/' ∉ name.toList ∧ name ≠ "" ∧ name ≠ "." ∧ name ≠ ".."))

/-- The changes that a directory may refuse. -/
inductive Change
  /-- Something is put under a name in the directory. -/
  | enter
  /-- A file in the directory gets its content. -/
  | fill
  /-- A file in the directory gets another name. -/
  | rename
  deriving DecidableEq, Repr

namespace Node

/-- The node at a location among recorded entries. -/
def at? (entries : List (Location × Node)) (location : Location) : Option Node :=
  if location = [] then some .directory else entries.lookup location

end Node

structure Disk where
  entries : List (Location × Node)
  closed : ∀ entry ∈ entries, Node.at? entries entry.1.dropLast = some .directory
  named : ∀ entry ∈ entries, ∀ name ∈ entry.1, IsName name
  /-- Where paths that are not absolute start. -/
  workingDirectory : Location
  /-- What is refused in which directory, and with which fault. -/
  refusals : List ((Change × Location) × Fault) := []
  deriving DecidableEq

namespace Disk

/-- Nothing but an empty working directory, beside the one in which the system keeps its
processes.  In that one nothing can be made, as if it were not there. -/
def empty : Disk where
  entries := [(["proc"], .directory), (["work"], .directory)]
  closed := by decide
  named := by decide
  workingDirectory := ["work"]
  refusals := [((.enter, ["proc"]), .notFound)]

def refusal? (d : Disk) (change : Change) (location : Location) : Option Fault :=
  d.refusals.lookup (change, location)

def node? (d : Disk) (location : Location) : Option Node := Node.at? d.entries location

@[simp]
theorem node?_root (d : Disk) : d.node? [] = some .directory := rfl

theorem lookup_filter {keep : Location × Node → Bool} {location : Location}
    (hkeep : ∀ node, keep (location, node) = true) (entries : List (Location × Node)) :
    (entries.filter keep).lookup location = entries.lookup location := by
  induction entries with
  | nil => rfl
  | cons entry rest ih =>
    obtain ⟨key, node⟩ := entry
    by_cases heq : location = key
    · subst heq
      simp [hkeep]
    · have hbeq : (location == key) = false := by simpa using heq
      by_cases hk : keep (key, node) <;> simp [List.lookup_cons, hk, hbeq, ih]

theorem isName_of_node? {d : Disk} {location : Location} {node : Node}
    (hnode : d.node? location = some node) : ∀ name ∈ location, IsName name := by
  by_cases hroot : location = []
  · simp [hroot]
  · rw [node?, Node.at?, if_neg hroot, List.lookup_eq_some_iff] at hnode
    obtain ⟨front, rest, hentries, -⟩ := hnode
    exact d.named (location, node) (hentries ▸ by simp)

/-- Puts a node at a location in a directory.  It may take the place of a file. -/
def set (d : Disk) (location : Location) (node : Node)
    (hparent : d.node? location.dropLast = some .directory)
    (hfree : d.node? location ≠ some .directory)
    (hname : ∀ name ∈ location.getLast?, IsName name) : Disk where
  entries := (location, node) :: d.entries.filter (·.1 != location)
  workingDirectory := d.workingDirectory
  refusals := d.refusals
  closed := by
    have hsame : ∀ other, other ≠ location →
        Node.at? ((location, node) :: d.entries.filter (·.1 != location)) other =
          d.node? other := by
      intro other hne
      have hbeq : (other == location) = false := by simpa using hne
      simp only [Node.at?, node?, List.lookup_cons, hbeq]
      rw [lookup_filter]
      intro _
      simpa using hne
    have hne_parent : location.dropLast ≠ location := by
      intro heq
      rw [heq] at hparent
      exact hfree hparent
    intro entry hentry
    rcases List.mem_cons.mp hentry with rfl | hold
    · rw [hsame _ hne_parent]
      exact hparent
    · have hclosed := d.closed entry (List.mem_filter.mp hold).1
      rw [hsame]
      · exact hclosed
      · intro heq
        rw [heq] at hclosed
        exact hfree hclosed
  named := by
    intro entry hentry name hmem
    rcases List.mem_cons.mp hentry with rfl | hold
    · have hne : location ≠ [] := List.ne_nil_of_mem hmem
      have hsplit : name ∈ location.dropLast ++ [location.getLast hne] := by
        rw [List.dropLast_concat_getLast hne]
        exact hmem
      rcases List.mem_append.mp hsplit with habove | hlast
      · exact isName_of_node? hparent name habove
      · rw [List.mem_singleton.mp hlast]
        exact hname _ (List.getLast?_eq_some_getLast hne)
    · exact d.named entry (List.mem_filter.mp hold).1 name hmem

theorem node?_set (d : Disk) (location : Location) (node : Node)
    (hparent : d.node? location.dropLast = some .directory)
    (hfree : d.node? location ≠ some .directory)
    (hname : ∀ name ∈ location.getLast?, IsName name) (other : Location) :
    (d.set location node hparent hfree hname).node? other =
      if other = location then some node else d.node? other := by
  by_cases heq : other = location
  · subst heq
    have hne : other ≠ [] := by
      intro hnil
      subst hnil
      exact hfree rfl
    simp [node?, set, Node.at?, hne]
  · have hbeq : (other == location) = false := by simpa using heq
    simp only [node?, set, Node.at?, List.lookup_cons, hbeq, heq, if_false]
    rw [lookup_filter]
    intro _
    simpa using heq

/-- Takes away whatever is at a location, with everything below it. -/
def remove (d : Disk) (location : Location) : Disk where
  entries := d.entries.filter fun entry => !location.isPrefixOf entry.1
  workingDirectory := d.workingDirectory
  refusals := d.refusals
  closed := by
    intro entry hentry
    obtain ⟨hmem, hkeep⟩ := List.mem_filter.mp hentry
    have hnot : location.isPrefixOf entry.1.dropLast = false := by
      rw [Bool.eq_false_iff, ne_eq, List.isPrefixOf_iff_prefix]
      intro hbelow
      have habove := List.isPrefixOf_iff_prefix.mpr <| hbelow.trans <| List.dropLast_prefix entry.1
      simp [habove] at hkeep
    have hclosed := d.closed entry hmem
    rw [Node.at?] at hclosed ⊢
    rw [lookup_filter]
    · exact hclosed
    · intro _
      simp [hnot]
  named entry hentry := d.named entry (List.mem_filter.mp hentry).1

/-- The names in a directory in ascending order. -/
def children (d : Disk) (location : Location) : List String :=
  Sorted.ofList <| d.entries.filterMap fun entry =>
    if entry.1.dropLast = location then entry.1.getLast? else none

/-- Everything below a location, each by its names from there on. -/
def below (d : Disk) (location : Location) : List (Location × Node) :=
  d.entries.filterMap fun entry =>
    if location.isPrefixOf entry.1 ∧ entry.1 ≠ location then
      some (entry.1.drop location.length, entry.2)
    else none

end Disk

end MarkupSeeds
