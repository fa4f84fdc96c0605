import MarkupSeeds.Proofs.CommandLine.Draft

/-!
# Items of a command line

A command line is laid out in items: a directory, a setting with its value in the same argument
or in the next one, a flag.  However the items of a configuration are ordered, each argument is
read as what it was meant to be, and the draft ends up with what the items say.
-/

namespace MarkupSeeds.CommandLine

inductive Item
  | directory (path : Path)
  /-- A setting and its value around an equals sign. -/
  | joined (setting : Setting) (text : String)
  /-- A setting with its value as the next argument. -/
  | apart (setting : Setting) (text : String)
  | flag (flag : Flag)
  deriving DecidableEq, Repr

namespace Item

def words : Item → List String
  | directory path => [path.text]
  | joined s text => ["--" ++ s.name ++ "=" ++ text]
  | apart s text => ["--" ++ s.name, text]
  | flag f => ["--" ++ f.name]

def directory? : Item → Option Path
  | directory path => some path
  | _ => none

/-- The text that the item gives for the setting. -/
def text? (s : Setting) : Item → Option String
  | joined setting text | apart setting text => if setting = s then some text else none
  | _ => none

end Item

/-- The directories among the items, in order. -/
def directories (items : List Item) : List Path := items.filterMap Item.directory?

/-- The texts that the items give for a setting, in order. -/
def texts (s : Setting) (items : List Item) : List String := items.filterMap (Item.text? s)

theorem directories_append (front behind : List Item) :
    directories (front ++ behind) = directories front ++ directories behind :=
  List.filterMap_append

theorem texts_append (s : Setting) (front behind : List Item) :
    texts s (front ++ behind) = texts s front ++ texts s behind :=
  List.filterMap_append

/-- A directory that may stand among the arguments. -/
structure IsPlain (path : Path) : Prop where
  ne_empty : path.text ≠ ""
  head_ne_dash : path.text.toList.head? ≠ some '-'

/-- Nothing is given too often, and whatever is given can be read. -/
structure WellFormed (items : List Item) : Prop where
  directories_le : (directories items).length ≤ 2
  plain : ∀ path ∈ directories items, IsPlain path
  texts_le : ∀ s, (texts s items).length ≤ 1
  readable : ∀ s, ∀ text ∈ texts s items, (s.read? text).isSome
  flags_le : ∀ f, items.count (.flag f) ≤ 1

/-- The draft holds what the items say and nothing else. -/
structure Draft.Holds (d : Draft) (items : List Item) : Prop where
  fixturesDir : d.fixturesDir = (directories items)[0]?
  corpusDir : d.corpusDir = (directories items)[1]?
  value : ∀ s, d.value? s = (texts s items).head?.bind s.read?
  raised : ∀ f, d.raised f = true ↔ .flag f ∈ items

/-! ## Arguments by themselves -/

section Words

variable {s : Setting} {f : Flag} {argument text : String}

theorem ofArgument_of_head_ne (hhead : argument.toList.head? ≠ some '-') :
    Word.ofArgument argument = .positional argument := by
  unfold Word.ofArgument
  split
  case h_4 => rfl
  all_goals
    rename_i heq
    rw [heq] at hhead
    exact absurd rfl hhead

theorem ofArgument_name (s : Setting) : Word.ofArgument ("--" ++ s.name) = .setting s none := by
  cases s <;> rfl

theorem ofArgument_flag (f : Flag) : Word.ofArgument ("--" ++ f.name) = .flag f := by
  cases f <;> rfl

theorem ofArgument_of_dashes {long : List Char} (hlist : argument.toList = '-' :: '-' :: long)
    (hne : long ≠ []) : Word.ofArgument argument = .ofLong long := by
  unfold Word.ofArgument
  rw [hlist]
  cases long with
  | nil => exact absurd rfl hne
  | cons c rest => rfl

theorem ofLong_joined (s : Setting) (value : List Char) :
    Word.ofLong (s.name.toList ++ '=' :: value) = .setting s (some (String.ofList value)) := by
  cases s <;> rfl

theorem ofArgument_joined (s : Setting) (text : String) :
    Word.ofArgument ("--" ++ s.name ++ "=" ++ text) = .setting s (some text) := by
  have hlist : ("--" ++ s.name ++ "=" ++ text).toList =
      '-' :: '-' :: (s.name.toList ++ '=' :: text.toList) := by
    simp [String.toList_append]
  rw [ofArgument_of_dashes hlist (by simp), ofLong_joined, String.ofList_toList]

/-- A text that can be read as a value does not look like an option. -/
theorem isValue_of_read? (hread : (s.read? text).isSome) : isValue text := by
  obtain ⟨v, hv⟩ := Option.isSome_iff_exists.mp hread
  rw [isValue, bne_iff_ne]
  cases s with
  | nesting =>
      rw [nesting?_eq_some_iff.mp hv]
      cases v <;> decide
  | maxLength | mutateLimit | crossLimit | randomSeed =>
      exact (Size.ofText?_eq_some_iff.mp hv).1.head_ne_dash

end Words

/-! ## One item -/

section Item

variable {d : Draft} {seen items : List Item} {path : Path} {s : Setting} {f : Flag} {text : String}

theorem WellFormed.of_append (hwell : WellFormed (seen ++ items)) : WellFormed seen where
  directories_le := by
    have hle := hwell.directories_le
    rw [directories_append, List.length_append] at hle
    exact Nat.le_of_add_right_le hle
  plain path hpath := hwell.plain path (by
    rw [directories_append]
    exact List.mem_append_left _ hpath)
  texts_le s := by
    have hle := hwell.texts_le s
    rw [texts_append, List.length_append] at hle
    exact Nat.le_of_add_right_le hle
  readable s text htext := hwell.readable s text (by
    rw [texts_append]
    exact List.mem_append_left _ htext)
  flags_le f := by
    have hle := hwell.flags_le f
    rw [List.count_append] at hle
    exact Nat.le_of_add_right_le hle

theorem Draft.Holds.place (hholds : d.Holds seen)
    (hwell : WellFormed (seen ++ [.directory path])) :
    ∃ d', d.place path.text = some d' ∧ d'.Holds (seen ++ [.directory path]) := by
  have hdirectories : directories (seen ++ [.directory path]) = directories seen ++ [path] :=
    directories_append ..
  have htexts : ∀ s, texts s (seen ++ [.directory path]) = texts s seen := fun s =>
    (texts_append ..).trans (List.append_nil _)
  have hflags : ∀ f, .flag f ∈ seen ++ [.directory path] ↔ .flag f ∈ seen := fun f => by simp
  have hplain : IsPlain path := hwell.plain path (by rw [hdirectories]; simp)
  have hroom : (directories seen).length ≤ 1 := by
    have hle := hwell.directories_le
    rw [hdirectories, List.length_append, List.length_singleton] at hle
    exact Nat.le_of_succ_le_succ hle
  obtain ⟨d', hplace, hfixtures, hcorpus, hvalue, hraised⟩ :=
    Draft.exists_place hholds.fixturesDir hholds.corpusDir hroom hplain.ne_empty
  refine ⟨d', hplace, ?_, ?_, fun s => ?_, fun f => ?_⟩
  · rw [hfixtures, hdirectories]
  · rw [hcorpus, hdirectories]
  · rw [hvalue, htexts, hholds.value]
  · rw [hraised, hflags, hholds.raised]

theorem Draft.Holds.assign {item : Item} (hholds : d.Holds seen)
    (hitem : item = .joined s text ∨ item = .apart s text)
    (hwell : WellFormed (seen ++ [item])) :
    ∃ d', d.assign s text = some d' ∧ d'.Holds (seen ++ [item]) := by
  have hdirectories : directories (seen ++ [item]) = directories seen := by
    rcases hitem with rfl | rfl <;> exact (directories_append ..).trans (List.append_nil _)
  have hself : texts s (seen ++ [item]) = texts s seen ++ [text] := by
    rcases hitem with rfl | rfl <;> simp [texts, Item.text?]
  have hothers : ∀ t ≠ s, texts t (seen ++ [item]) = texts t seen := fun t hne => by
    rcases hitem with rfl | rfl <;> simp [texts, Item.text?, hne.symm]
  have hflags : ∀ f, .flag f ∈ seen ++ [item] ↔ .flag f ∈ seen := fun f => by
    rcases hitem with rfl | rfl <;> simp
  -- The item gives the only text for its setting, so its place is still empty.
  have hfirst : texts s seen = [] := by
    have hle := hwell.texts_le s
    rw [hself, List.length_append, List.length_singleton] at hle
    exact List.length_eq_zero_iff.mp (Nat.le_zero.mp (Nat.le_of_succ_le_succ hle))
  have hempty : d.value? s = none := by rw [hholds.value, hfirst]; rfl
  obtain ⟨v, hv⟩ : ∃ v, s.read? text = some v :=
    Option.isSome_iff_exists.mp (hwell.readable s text (by rw [hself]; simp))
  refine ⟨d.set s v, Draft.assign_eq_some hempty hv, ?_, ?_, fun t => ?_, fun f => ?_⟩
  · rw [Draft.fixturesDir_set, hholds.fixturesDir, hdirectories]
  · rw [Draft.corpusDir_set, hholds.corpusDir, hdirectories]
  · by_cases hne : t = s
    · subst hne
      rw [Draft.value?_set_self, hself, hfirst]
      exact hv.symm
    · rw [Draft.value?_set_of_ne hne, hholds.value, hothers t hne]
  · rw [Draft.raised_set, hflags, hholds.raised]

theorem Draft.Holds.raise (hholds : d.Holds seen) (hwell : WellFormed (seen ++ [.flag f])) :
    ∃ d', d.raise f = some d' ∧ d'.Holds (seen ++ [.flag f]) := by
  have hdirectories : directories (seen ++ [.flag f]) = directories seen :=
    (directories_append ..).trans (List.append_nil _)
  have htexts : ∀ s, texts s (seen ++ [.flag f]) = texts s seen := fun s =>
    (texts_append ..).trans (List.append_nil _)
  have hfirst : .flag f ∉ seen := by
    have hle := hwell.flags_le f
    rw [List.count_append, List.count_singleton_self] at hle
    exact List.count_eq_zero.mp (Nat.le_zero.mp (Nat.le_of_succ_le_succ hle))
  have hdown : d.raised f = false := Bool.eq_false_iff.mpr (hfirst ∘ (hholds.raised f).mp)
  refine ⟨d.up f, Draft.raise_eq_some hdown, ?_, ?_, fun s => ?_, fun g => ?_⟩
  · rw [Draft.fixturesDir_up, hholds.fixturesDir, hdirectories]
  · rw [Draft.corpusDir_up, hholds.corpusDir, hdirectories]
  · rw [Draft.value?_up, hholds.value, htexts]
  · by_cases hne : g = f
    · subst hne
      simp
    · rw [Draft.raised_up_of_ne hne, hholds.raised]
      simp [hne]

/-- The arguments of an item are read as that item, whatever comes behind them. -/
theorem arguments_item {item : Item} (hholds : d.Holds seen) (hwell : WellFormed (seen ++ [item]))
    (rest : List String) :
    ∃ d', d'.Holds (seen ++ [item]) ∧ arguments d (item.words ++ rest) = arguments d' rest := by
  cases item with
  | directory path =>
      have hplain : IsPlain path := hwell.plain path
        (by simp [directories, Item.directory?])
      obtain ⟨d', hplace, hnext⟩ := hholds.place hwell
      refine ⟨d', hnext, ?_⟩
      rw [Item.words, List.singleton_append, arguments, ofArgument_of_head_ne hplain.head_ne_dash]
      simp only [hplace]
  | joined s text =>
      obtain ⟨d', hassign, hnext⟩ := hholds.assign (Or.inl rfl) hwell
      refine ⟨d', hnext, ?_⟩
      rw [Item.words, List.singleton_append, arguments, ofArgument_joined]
      simp only [hassign]
  | apart s text =>
      have hvalue : isValue text := isValue_of_read?
        (hwell.readable s text (by simp [texts, Item.text?]))
      obtain ⟨d', hassign, hnext⟩ := hholds.assign (Or.inr rfl) hwell
      refine ⟨d', hnext, ?_⟩
      rw [Item.words, List.cons_append, List.singleton_append, arguments, ofArgument_name]
      simp only [hvalue, if_true, hassign]
  | flag f =>
      obtain ⟨d', hraise, hnext⟩ := hholds.raise hwell
      refine ⟨d', hnext, ?_⟩
      rw [Item.words, List.singleton_append, arguments, ofArgument_flag]
      simp only [hraise]

/-! ## All items -/

theorem arguments_items (hholds : d.Holds seen) (hwell : WellFormed (seen ++ items)) :
    ∃ d' : Draft, d'.Holds (seen ++ items) ∧
      arguments d (items.flatMap Item.words) = d'.request := by
  induction items generalizing d seen with
  | nil => exact ⟨d, by rwa [List.append_nil], rfl⟩
  | cons item items ih =>
      -- The item joins those that were seen; the command line as a whole stays the same.
      rw [List.append_cons] at hwell
      obtain ⟨d', hnext, hitem⟩ := arguments_item hholds hwell.of_append (items.flatMap Item.words)
      obtain ⟨d'', hlast, hitems⟩ := ih hnext hwell
      rw [List.append_cons, List.flatMap_cons, hitem]
      exact ⟨d'', hlast, hitems⟩

theorem holds_nil : ({} : Draft).Holds [] :=
  ⟨rfl, rfl, fun s => by cases s <;> rfl, fun f => by cases f <;> decide⟩

/-- A well-formed command line is a run with what its items say. -/
theorem exists_holds_of_wellFormed (hwell : WellFormed items) :
    ∃ d : Draft, d.Holds items ∧ parse (items.flatMap Item.words) = d.request :=
  arguments_items holds_nil hwell

end Item

end MarkupSeeds.CommandLine
