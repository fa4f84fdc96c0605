import MarkupSeeds.Proofs.Disk.Listing

/-!
# What storing a file leaves alone

A file that is put at a location can be found there and nowhere else.  The directories are the
same, so every path leads where it led; only where the file was put, there is something else now,
and the listing of its directory names it.
-/

namespace MarkupSeeds.Disk

theorem find_eq_ok_iff {d : Disk} {path : Path} {node : Node} :
    d.find path = .ok node ↔
      ∃ location, d.resolve path = .ok location ∧ d.node? location = some node := by
  rw [find]
  constructor
  · intro hfind
    obtain ⟨location, hresolve, hnode⟩ := exists_of_bind_eq_ok hfind
    split at hnode
    · rename_i found hfound
      cases hnode
      exact ⟨location, hresolve, hfound⟩
    · cases hnode
  · rintro ⟨location, hresolve, hnode⟩
    rw [hresolve, ok_bind, hnode]
    rfl

namespace Puts

variable {d stored : Disk} {target : Location} {content : Bytes}
  (hputs : d.Puts stored target content)

include hputs

/-- A file is no way to anything, so what does not end at the file that was put does not pass it. -/
theorem walk_of_ne {location found : Location} {segments : List String}
    (hwalk : stored.walk location segments = .ok found) (hne : found ≠ target) :
    d.walk location segments = .ok found := by
  fun_induction Disk.walk stored location segments with
  | case1 location => exact hwalk
  | case2 location segment rest hdir hstep ih =>
      rw [Disk.walk, if_pos (hputs.directory_iff.mp hdir), if_pos hstep]
      exact ih hwalk
  | case3 location rest hdir hstep ih =>
      rw [Disk.walk, if_pos (hputs.directory_iff.mp hdir), if_neg hstep, if_pos rfl]
      exact ih hwalk
  | case4 => cases hwalk
  | case5 => cases hwalk
  | case6 location segment rest hdir hstep hparent hshort hthere ih =>
      have hpast : location ++ [segment] ≠ target := by
        intro htarget
        have hfile : stored.node? (location ++ [segment]) ≠ some .directory := by
          rw [hputs.node?, if_pos htarget]
          simp
        by_cases hnil : rest = []
        · rw [hnil, htarget] at hwalk
          exact hne (Except.ok.inj hwalk).symm
        · rw [walk_of_not_directory hfile hnil] at hwalk
          cases hwalk
      rw [hputs.node?_of_ne hpast] at hthere
      rw [Disk.walk, if_pos (hputs.directory_iff.mp hdir), if_neg hstep, if_neg hparent,
        if_neg hshort, if_neg hthere]
      exact ih hwalk
  | case7 => cases hwalk

theorem resolve_of_ne {path : Path} {location : Location}
    (hresolve : stored.resolve path = .ok location) (hne : location ≠ target) :
    d.resolve path = .ok location := by
  obtain ⟨hsound, hwalk⟩ := resolve_eq_ok_iff.mp hresolve
  rw [start, hputs.workingDirectory] at hwalk
  exact resolve_eq_ok_iff.mpr ⟨hsound, hputs.walk_of_ne hwalk hne⟩

/-- What paths to other places stand for remains the same. -/
theorem find_iff {path : Path} (hne : stored.resolve path ≠ .ok target) {node : Node} :
    stored.find path = .ok node ↔ d.find path = .ok node := by
  rw [find_eq_ok_iff, find_eq_ok_iff]
  constructor
  · rintro ⟨location, hresolve, hnode⟩
    have hother : location ≠ target := fun htarget => hne (htarget ▸ hresolve)
    rw [hputs.node?_of_ne hother] at hnode
    exact ⟨location, hputs.resolve_of_ne hresolve hother, hnode⟩
  · rintro ⟨location, hresolve, hnode⟩
    have hafter := hputs.keeps.resolve hresolve
    have hother : location ≠ target := fun htarget => hne (htarget ▸ hafter)
    rw [← hputs.node?_of_ne hother] at hnode
    exact ⟨location, hafter, hnode⟩

/-- The only name that a listing may have gained is that of the file. -/
theorem mem_children_iff {location : Location} {name : String} :
    name ∈ stored.children location ↔
      location ++ [name] = target ∨ name ∈ d.children location := by
  rw [Disk.mem_children_iff, Disk.mem_children_iff, hputs.node?]
  split
  · rename_i htarget
    simp [htarget]
  · rename_i hother
    simp [hother]

end Puts

/-- A file was stored at a path that did not lead to such a file before, and that is all.  Every
other place holds what it held, listings gain no other name, and what is found by paths to other
places is the same. -/
structure StoresOnly (d stored : Disk) (path : Path) (content : Bytes) : Prop where
  lacked : d.read path ≠ .ok content
  held : stored.read path = .ok content
  workingDirectory : stored.workingDirectory = d.workingDirectory
  refusals : stored.refusals = d.refusals
  elsewhere : ∃ target, stored.resolve path = .ok target ∧
    (∀ location, location ≠ target → stored.node? location = d.node? location) ∧
    ∀ location name, name ∈ stored.children location ↔
      location ++ [name] = target ∨ name ∈ d.children location
  others : ∀ other, stored.resolve other ≠ stored.resolve path →
    ∀ node, stored.find other = .ok node ↔ d.find other = .ok node

/-- Putting a file under a name in a directory stores that file only. -/
theorem Puts.storesOnly {d stored : Disk} {dir : Path} {parent : Location} {name : String}
    {content : Bytes} (hputs : d.Puts stored (parent ++ [name]) content)
    (hreaches : d.Reaches dir parent) (hstep : ¬ isStep name)
    (hadmits : d.Admits dir parent name) (hlacked : d.read (dir.join name) ≠ .ok content) :
    d.StoresOnly stored (dir.join name) content := by
  have htarget : stored.resolve (dir.join name) = .ok (parent ++ [name]) := by
    apply resolve_join_of_node? (hputs.keeps.reaches hreaches) hstep hadmits.sound hadmits.short
    rw [hputs.node?, if_pos rfl]
  refine ⟨hlacked, hputs.read_join hreaches hstep hadmits, hputs.workingDirectory,
    hputs.refusals, ?_, ?_⟩
  · exact ⟨parent ++ [name], htarget, fun location => hputs.node?_of_ne,
      fun location other => hputs.mem_children_iff⟩
  · intro other hother node
    rw [htarget] at hother
    exact hputs.find_iff hother

end MarkupSeeds.Disk
