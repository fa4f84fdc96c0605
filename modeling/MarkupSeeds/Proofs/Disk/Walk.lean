import MarkupSeeds.Disk.Access

/-!
# Walks

A walk follows segments one after another.  Without `..` it only goes down: it visits
the locations between its start and its end and depends on nothing else.  While no
directory goes away, a walk that succeeded still leads to the same place.  On a disk with
more on it, one that leads to a place there either leads to it already or fails for want of
something.
-/

namespace MarkupSeeds.Disk

/-! ## Steps that may fail -/

@[simp]
theorem ok_bind {α β : Type} (a : α) (next : α → Except Fault β) :
    (Except.ok a >>= next) = next a := rfl

theorem error_bind {α β : Type} (fault : Fault) (next : α → Except Fault β) :
    (Except.error fault >>= next) = .error fault := rfl

theorem exists_of_bind_eq_ok {α β : Type} {first : Except Fault α} {next : α → Except Fault β}
    {b : β} (hbind : first >>= next = .ok b) : ∃ a, first = .ok a ∧ next a = .ok b := by
  cases first with
  | error fault => cases hbind
  | ok a => exact ⟨a, rfl, hbind⟩

/-! ## Locations -/

/-- Whatever is on the disk lies in a directory. -/
theorem node?_dropLast {d : Disk} {location : Location} {node : Node}
    (hnode : d.node? location = some node) : d.node? location.dropLast = some .directory := by
  by_cases hroot : location = []
  · rw [hroot]
    rfl
  · rw [node?, Node.at?, if_neg hroot, List.lookup_eq_some_iff] at hnode
    obtain ⟨front, rest, hentries, -⟩ := hnode
    exact d.closed (location, node) (hentries ▸ by simp)

theorem directory_of_node?_append {d : Disk} {location : Location} {names : List String}
    {node : Node} (hnode : d.node? (location ++ names) = some node) (hne : names ≠ []) :
    d.node? location = some .directory := by
  induction names generalizing location with
  | nil => exact absurd rfl hne
  | cons name names ih =>
      have hentry : ∃ entry, d.node? (location ++ [name]) = some entry := by
        cases names with
        | nil => exact ⟨node, hnode⟩
        | cons other names =>
            rw [List.append_cons] at hnode
            exact ⟨_, ih hnode (List.cons_ne_nil _ _)⟩
      obtain ⟨entry, hentry⟩ := hentry
      have hparent := node?_dropLast hentry
      rw [List.dropLast_concat] at hparent
      exact hparent

theorem something_of_append {d : Disk} {location : Location} {names : List String}
    (hthere : d.node? (location ++ names) ≠ none) : d.node? location ≠ none := by
  by_cases hnames : names = []
  · rw [hnames, List.append_nil] at hthere
    exact hthere
  · obtain ⟨node, hnode⟩ := Option.ne_none_iff_exists'.mp hthere
    rw [directory_of_node?_append hnode hnames]
    exact Option.some_ne_none _

/-! ## Walks in parts -/

theorem walk_append (d : Disk) (location : Location) (front rest : List String) :
    d.walk location (front ++ rest) =
      d.walk location front >>= fun middle => d.walk middle rest := by
  induction front generalizing location with
  | nil => rfl
  | cons segment front ih =>
      rw [List.cons_append, walk, walk]
      split
      · split
        · exact ih location
        split
        · exact ih location.dropLast
        split
        · rfl
        split
        · rfl
        · exact ih (location ++ [segment])
      · rfl

theorem walk_of_not_directory {d : Disk} {location : Location}
    (hnode : d.node? location ≠ some .directory) {segments : List String} (hne : segments ≠ []) :
    d.walk location segments = .error (d.barrier location) := by
  obtain ⟨segment, rest, rfl⟩ := List.exists_cons_of_ne_nil hne
  rw [walk, if_neg hnode]

theorem ne_of_not_isStep {segment : String} (hstep : ¬ isStep segment) :
    ¬ (segment = "" ∨ segment = ".") ∧ segment ≠ ".." := by
  simp_all [isStep]

/-- A segment that names an entry leads to it if it is there. -/
theorem walk_name {d : Disk} {parent : Location} {name : String} (hstep : ¬ isStep name)
    (hdir : d.node? parent = some .directory) (rest : List String) :
    d.walk parent (name :: rest) =
      if Path.nameLimit < name.utf8ByteSize then .error .nameTooLong
      else if d.node? (parent ++ [name]) = none then .error .notFound
      else d.walk (parent ++ [name]) rest := by
  obtain ⟨hname, hparent⟩ := ne_of_not_isStep hstep
  rw [walk, if_pos hdir, if_neg hname, if_neg hparent]

/-! ## Where a walk leads -/

/-- The segments that name an entry. -/
def namesOf (segments : List String) : List String :=
  segments.filter fun segment => segment != "" && segment != "."

theorem namesOf_cons_of_step {segment : String} (hstep : segment = "" ∨ segment = ".")
    (rest : List String) : namesOf (segment :: rest) = namesOf rest := by
  rw [namesOf, List.filter_cons_of_neg]
  · rfl
  · rcases hstep with rfl | rfl <;> decide

theorem namesOf_cons_of_name {segment : String} (hname : ¬ (segment = "" ∨ segment = "."))
    (rest : List String) : namesOf (segment :: rest) = segment :: namesOf rest := by
  rw [namesOf, List.filter_cons_of_pos]
  · rfl
  · simpa [not_or] using hname

theorem namesOf_append (front rest : List String) :
    namesOf (front ++ rest) = namesOf front ++ namesOf rest :=
  List.filter_append front rest

theorem eq_append_of_walk {d : Disk} {location found : Location} {segments : List String}
    (hdots : ".." ∉ segments) (hwalk : d.walk location segments = .ok found) :
    found = location ++ namesOf segments := by
  fun_induction walk d location segments with
  | case1 location =>
      cases hwalk
      exact (List.append_nil _).symm
  | case2 location segment rest hdir hstep ih =>
      rw [namesOf_cons_of_step hstep]
      exact ih (fun hmem => hdots (List.mem_cons_of_mem _ hmem)) hwalk
  | case3 location rest hdir hstep ih => exact absurd List.mem_cons_self hdots
  | case4 => cases hwalk
  | case5 => cases hwalk
  | case6 location segment rest hdir hstep hparent hshort hthere ih =>
      rw [namesOf_cons_of_name hstep, List.append_cons]
      exact ih (fun hmem => hdots (List.mem_cons_of_mem _ hmem)) hwalk
  | case7 => cases hwalk

/-- A walk leads from something to something. -/
theorem node?_of_walk {d : Disk} {location found : Location} {segments : List String}
    (hstart : d.node? location ≠ none) (hwalk : d.walk location segments = .ok found) :
    d.node? found ≠ none := by
  fun_induction walk d location segments with
  | case1 location =>
      cases hwalk
      exact hstart
  | case2 location segment rest hdir hstep ih => exact ih hstart hwalk
  | case3 location rest hdir hstep ih =>
      exact ih (by rw [node?_dropLast hdir]; exact Option.some_ne_none _) hwalk
  | case4 => cases hwalk
  | case5 => cases hwalk
  | case6 location segment rest hdir hstep hparent hshort hthere ih => exact ih hthere hwalk
  | case7 => cases hwalk

/-- A walk to something starts from something. -/
theorem something_of_walk {d : Disk} {location found : Location} {segments : List String}
    (hwalk : d.walk location segments = .ok found) (hfound : d.node? found ≠ none) :
    d.node? location ≠ none := by
  by_cases hnil : segments = []
  · subst hnil
    cases hwalk
    exact hfound
  · intro hnone
    rw [walk_of_not_directory (by simp [hnone]) hnil] at hwalk
    cases hwalk

/-! ## Walks on two disks -/

/-- Directories are kept, and what else there is may change but does not go away. -/
structure Keeps (d other : Disk) : Prop where
  workingDirectory : other.workingDirectory = d.workingDirectory
  directory : ∀ {location}, d.node? location = some .directory →
    other.node? location = some .directory
  something : ∀ {location}, d.node? location ≠ none → other.node? location ≠ none

theorem Keeps.refl (d : Disk) : d.Keeps d := ⟨rfl, id, id⟩

theorem Keeps.trans {d other last : Disk} (hfirst : d.Keeps other) (hsecond : other.Keeps last) :
    d.Keeps last where
  workingDirectory := hsecond.workingDirectory.trans hfirst.workingDirectory
  directory hdir := hsecond.directory (hfirst.directory hdir)
  something hthere := hsecond.something (hfirst.something hthere)

theorem Keeps.walk {d other : Disk} (hkeeps : d.Keeps other) {location found : Location}
    {segments : List String} (hwalk : d.walk location segments = .ok found) :
    other.walk location segments = .ok found := by
  fun_induction Disk.walk d location segments with
  | case1 location => exact hwalk
  | case2 location segment rest hdir hstep ih =>
      rw [Disk.walk, if_pos (hkeeps.directory hdir), if_pos hstep]
      exact ih hwalk
  | case3 location rest hdir hstep ih =>
      rw [Disk.walk, if_pos (hkeeps.directory hdir), if_neg hstep, if_pos rfl]
      exact ih hwalk
  | case4 => cases hwalk
  | case5 => cases hwalk
  | case6 location segment rest hdir hstep hparent hshort hthere ih =>
      rw [Disk.walk, if_pos (hkeeps.directory hdir), if_neg hstep, if_neg hparent, if_neg hshort,
        if_neg (hkeeps.something hthere)]
      exact ih hwalk
  | case7 => cases hwalk

/-- The second disk has at least what the first one has. -/
structure Extends (d larger : Disk) : Prop where
  workingDirectory : larger.workingDirectory = d.workingDirectory
  node? : ∀ {location node}, d.node? location = some node → larger.node? location = some node

theorem Extends.keeps {d larger : Disk} (hextends : d.Extends larger) : d.Keeps larger where
  workingDirectory := hextends.workingDirectory
  directory := hextends.node?
  something hthere := by
    obtain ⟨node, hnode⟩ := Option.ne_none_iff_exists'.mp hthere
    rw [hextends.node? hnode]
    exact Option.some_ne_none node

/-- Where there is a way on the larger disk, there is either the same way on the smaller
one or something missing. -/
theorem Extends.walk_or_notFound {d larger : Disk} (hextends : d.Extends larger)
    {location found : Location} {segments : List String} (hstart : d.node? location ≠ none)
    (hwalk : larger.walk location segments = .ok found) :
    d.walk location segments = .ok found ∨ d.walk location segments = .error .notFound := by
  have hdown : ∀ {location : Location}, d.node? location ≠ none →
      larger.node? location = some .directory → d.node? location = some .directory := by
    intro location hthere hdir
    obtain ⟨node, hnode⟩ := Option.ne_none_iff_exists'.mp hthere
    rw [hnode, ← hextends.node? hnode, hdir]
  fun_induction Disk.walk larger location segments with
  | case1 location => exact Or.inl hwalk
  | case2 location segment rest hdir hstep ih =>
      rw [Disk.walk, if_pos (hdown hstart hdir), if_pos hstep]
      exact ih hstart hwalk
  | case3 location rest hdir hstep ih =>
      have hhere := hdown hstart hdir
      have habove : d.node? location.dropLast ≠ none := by
        rw [node?_dropLast hhere]
        exact Option.some_ne_none _
      rw [Disk.walk, if_pos hhere, if_neg hstep, if_pos rfl]
      exact ih habove hwalk
  | case4 => cases hwalk
  | case5 => cases hwalk
  | case6 location segment rest hdir hstep hparent hshort hthere ih =>
      rw [Disk.walk, if_pos (hdown hstart hdir), if_neg hstep, if_neg hparent, if_neg hshort]
      by_cases hmissing : d.node? (location ++ [segment]) = none
      · rw [if_pos hmissing]
        exact Or.inr rfl
      · rw [if_neg hmissing]
        exact ih hmissing hwalk
  | case7 => cases hwalk

/-- A walk without `..` depends on nothing but the locations on its way. -/
theorem walk_congr {d other : Disk} {location : Location} {segments : List String}
    (hdots : ".." ∉ segments)
    (hsame : ∀ names, names <+: namesOf segments →
      other.node? (location ++ names) = d.node? (location ++ names)) :
    other.walk location segments = d.walk location segments := by
  have hhere : other.node? location = d.node? location := by
    simpa using hsame [] List.nil_prefix
  fun_induction Disk.walk d location segments with
  | case1 location => rfl
  | case2 location segment rest hdir hstep ih =>
      rw [namesOf_cons_of_step hstep] at hsame
      rw [Disk.walk, if_pos (hhere.trans hdir), if_pos hstep]
      exact ih (fun hmem => hdots (List.mem_cons_of_mem _ hmem)) hsame hhere
  | case3 location rest hdir hstep ih => exact absurd List.mem_cons_self hdots
  | case4 location segment rest hdir hstep hparent hlong =>
      rw [Disk.walk, if_pos (hhere.trans hdir), if_neg hstep, if_neg hparent, if_pos hlong]
  | case5 location segment rest hdir hstep hparent hshort hmissing =>
      rw [namesOf_cons_of_name hstep] at hsame
      have hnext := hsame [segment] (List.prefix_append [segment] _)
      rw [Disk.walk, if_pos (hhere.trans hdir), if_neg hstep, if_neg hparent, if_neg hshort,
        if_pos (hnext.trans hmissing)]
  | case6 location segment rest hdir hstep hparent hshort hthere ih =>
      rw [namesOf_cons_of_name hstep] at hsame
      have hnext := hsame [segment] (List.prefix_append [segment] _)
      rw [Disk.walk, if_pos (hhere.trans hdir), if_neg hstep, if_neg hparent, if_neg hshort,
        if_neg (hnext ▸ hthere)]
      refine ih (fun hmem => hdots (List.mem_cons_of_mem _ hmem)) ?_ hnext
      intro names hnames
      rw [← List.append_cons]
      exact hsame (segment :: names) ((List.prefix_cons_inj segment).mpr hnames)
  | case7 location segment rest hnot =>
      rw [Disk.walk, if_neg (hhere ▸ hnot), barrier, barrier, hhere]

/-- Where the way on the larger disk leads to something on the smaller one, it is the way
there too. -/
theorem Extends.walk_of_something {d larger : Disk} (hextends : d.Extends larger)
    {location found : Location} {segments : List String} (hdots : ".." ∉ segments)
    (hwalk : larger.walk location segments = .ok found) (hthere : d.node? found ≠ none) :
    d.walk location segments = .ok found := by
  rw [← hwalk, eq_comm]
  apply walk_congr hdots
  rintro names ⟨rest, hrest⟩
  rw [eq_append_of_walk hdots hwalk, ← hrest, ← List.append_assoc] at hthere
  obtain ⟨node, hnode⟩ := Option.ne_none_iff_exists'.mp (something_of_append hthere)
  rw [hnode, hextends.node? hnode]

end MarkupSeeds.Disk
