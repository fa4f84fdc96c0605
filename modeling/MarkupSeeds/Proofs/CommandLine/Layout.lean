import Mathlib.Order.Basic
import MarkupSeeds.Proofs.CommandLine.Items

/-!
# Layouts of a configuration

A configuration can be laid out on the command line in many ways: what has its default value may
be left out, numbers may be written in several ways, a value may stand in the argument of its
setting or behind it, and all but the order of the directories is free.  Every configuration has
a layout, and every layout is read as its configuration.
-/

namespace MarkupSeeds.CommandLine

/-- A text for a value of a setting. -/
def Setting.Spells : (s : Setting) → String → s.Value → Prop
  | maxLength, text, n | mutateLimit, text, n | crossLimit, text, n | randomSeed, text, n =>
    Size.Spells text n
  | nesting, text, v => text = nestingName v

/-- A configuration with words for its sizes, whose directories do not look like options. -/
structure IsExpressible (c : Config) : Prop where
  fixturesDir : IsPlain c.fixturesDir
  corpusDir : IsPlain c.corpusDir
  maxLength : c.maxLength ≤ Size.largest
  mutateLimit : c.mutateLimit ≤ Size.largest
  crossLimit : c.crossLimit ≤ Size.largest

/-- The items say what the configuration is, and whether a report is asked for. -/
structure IsLayout (c : Config) (json : Bool) (items : List Item) : Prop where
  directories : directories items = [c.fixturesDir, c.corpusDir] ∨
    directories items = [c.fixturesDir] ∧ c.corpusDir = defaultCorpusDir ∨
    directories items = [] ∧ c.fixturesDir = defaultFixturesDir ∧ c.corpusDir = defaultCorpusDir
  settings : ∀ s, (∃ text, texts s items = [text] ∧ s.Spells text (s.value c)) ∨
    texts s items = [] ∧ s.value c = s.value ({} : Config)
  dryRun : items.count (.flag .dryRun) = c.dryRun.toNat
  json : items.count (.flag .json) = json.toNat

variable {c : Config} {json : Bool} {items : List Item}

/-! ## Layouts are read -/

theorem IsExpressible.read?_eq_some {s : Setting} {text : String} (hexpressible : IsExpressible c)
    (hspells : s.Spells text (s.value c)) : s.read? text = some (s.value c) := by
  cases s with
  | maxLength => exact Size.ofText?_eq_some_iff.mpr ⟨hspells, hexpressible.maxLength⟩
  | mutateLimit => exact Size.ofText?_eq_some_iff.mpr ⟨hspells, hexpressible.mutateLimit⟩
  | crossLimit => exact Size.ofText?_eq_some_iff.mpr ⟨hspells, hexpressible.crossLimit⟩
  | randomSeed =>
      exact Size.ofText?_eq_some_iff.mpr ⟨hspells, Nat.le_of_lt_succ c.randomSeed.toNat_lt⟩
  | nesting => exact nesting?_eq_some_iff.mpr hspells

theorem IsLayout.count_flag_le (hlayout : IsLayout c json items) (f : Flag) :
    items.count (.flag f) ≤ 1 := by
  cases f with
  | dryRun => exact hlayout.dryRun.trans_le (Bool.toNat_le _)
  | json => exact hlayout.json.trans_le (Bool.toNat_le _)

theorem IsLayout.wellFormed (hexpressible : IsExpressible c) (hlayout : IsLayout c json items) :
    WellFormed items where
  directories_le := by
    obtain hboth | ⟨hone, -⟩ | ⟨hnone, -⟩ := hlayout.directories
    · rw [hboth]
      exact Nat.le_refl 2
    · rw [hone]
      exact Nat.le_succ 1
    · rw [hnone]
      exact Nat.zero_le 2
  plain path hpath := by
    have hpath : path = c.fixturesDir ∨ path = c.corpusDir := by
      obtain hboth | ⟨hone, -⟩ | ⟨hnone, -⟩ := hlayout.directories
      · rwa [hboth, List.mem_pair] at hpath
      · rw [hone, List.mem_singleton] at hpath
        exact Or.inl hpath
      · rw [hnone] at hpath
        cases hpath
    obtain rfl | rfl := hpath
    · exact hexpressible.fixturesDir
    · exact hexpressible.corpusDir
  texts_le s := by
    obtain ⟨text, htexts, -⟩ | ⟨htexts, -⟩ := hlayout.settings s
    · rw [htexts]
      exact Nat.le_refl 1
    · rw [htexts]
      exact Nat.zero_le 1
  readable s text htext := by
    obtain ⟨given, htexts, hspells⟩ | ⟨htexts, -⟩ := hlayout.settings s
    · rw [htexts, List.mem_singleton] at htext
      rw [htext, hexpressible.read?_eq_some hspells]
      rfl
    · rw [htexts] at htext
      cases htext
  flags_le := hlayout.count_flag_le

/-- Each value of the draft is the one that the layout means, given or left out. -/
theorem IsLayout.value_eq {d : Draft} (hexpressible : IsExpressible c)
    (hlayout : IsLayout c json items) (hholds : d.Holds items) (s : Setting) :
    s.value d.config = s.value c := by
  have hvalue := hholds.value s
  obtain ⟨text, htexts, hspells⟩ | ⟨htexts, hdefault⟩ := hlayout.settings s
  · rw [htexts, List.head?_cons, Option.bind_some, hexpressible.read?_eq_some hspells] at hvalue
    exact Draft.value_config_of_some hvalue
  · rw [htexts, List.head?_nil, Option.bind_none] at hvalue
    rw [Draft.value_config_of_none hvalue, hdefault]

theorem IsLayout.directories_eq {d : Draft} (hlayout : IsLayout c json items)
    (hholds : d.Holds items) :
    d.config.fixturesDir = c.fixturesDir ∧ d.config.corpusDir = c.corpusDir := by
  rw [Draft.config, hholds.fixturesDir, hholds.corpusDir]
  obtain hboth | ⟨hone, hcorpus⟩ | ⟨hnone, hfixtures, hcorpus⟩ := hlayout.directories
  · rw [hboth]
    exact ⟨rfl, rfl⟩
  · rw [hone, hcorpus]
    exact ⟨rfl, rfl⟩
  · rw [hnone, hfixtures, hcorpus]
    exact ⟨rfl, rfl⟩

/-- A flag that is counted once or not at all, as `wanted` says, is raised as `wanted` says. -/
theorem raised_eq_of_count {d : Draft} {f : Flag} {wanted : Bool} (hholds : d.Holds items)
    (hcount : items.count (.flag f) = wanted.toNat) : d.raised f = wanted := by
  rw [Bool.eq_iff_iff, hholds.raised, ← List.count_pos_iff, hcount]
  cases wanted <;> decide

theorem IsLayout.request_eq {d : Draft} (hexpressible : IsExpressible c)
    (hlayout : IsLayout c json items) (hholds : d.Holds items) : d.request = .run c json := by
  obtain ⟨hfixtures, hcorpus⟩ := hlayout.directories_eq hholds
  have hdry : d.dryRun = c.dryRun := raised_eq_of_count hholds hlayout.dryRun
  have hjson : d.json = json := raised_eq_of_count hholds hlayout.json
  rw [Draft.request, hjson,
    config_ext hfixtures hcorpus (hlayout.value_eq hexpressible hholds) hdry]

/-! ## Every configuration has a layout -/

/-- A value as it is printed. -/
def Setting.print : (s : Setting) → s.Value → String
  | maxLength, n | mutateLimit, n | crossLimit, n | randomSeed, n => Nat.repr n
  | nesting, v => nestingName v

theorem Setting.spells_print (s : Setting) (v : s.Value) : s.Spells (s.print v) v := by
  cases s with
  | nesting => rfl
  | maxLength | mutateLimit | crossLimit | randomSeed => exact Size.spells_toString v

/-- The layout that gives everything, be it the default or not. -/
def fullLayout (c : Config) (json : Bool) : List Item :=
  [.directory c.fixturesDir, .directory c.corpusDir] ++
    Setting.all.map (fun s => .joined s (s.print (s.value c))) ++
    List.replicate c.dryRun.toNat (.flag .dryRun) ++ List.replicate json.toNat (.flag .json)

theorem isLayout_fullLayout (c : Config) (json : Bool) : IsLayout c json (fullLayout c json) := by
  unfold fullLayout
  refine ⟨Or.inl ?_, fun s => Or.inl ⟨s.print (s.value c), ?_, s.spells_print _⟩, ?_, ?_⟩
  · cases c.dryRun <;> cases json <;> rfl
  · cases s <;> cases c.dryRun <;> cases json <;> rfl
  · cases c.dryRun <;> cases json <;> rfl
  · cases c.dryRun <;> cases json <;> rfl

/-- Every configuration can be asked for, and any way of laying it out is read as that
configuration, whatever the order of its items and whatever the spelling of its values. -/
theorem every_layout_is_read (c : Config) (hexpressible : IsExpressible c) (json : Bool) :
    (∃ items, IsLayout c json items) ∧
      ∀ items, IsLayout c json items → parse (items.flatMap Item.words) = .run c json := by
  refine ⟨⟨fullLayout c json, isLayout_fullLayout c json⟩, ?_⟩
  intro items hlayout
  obtain ⟨d, hholds, hparse⟩ := exists_holds_of_wellFormed (hlayout.wellFormed hexpressible)
  rw [hparse, hlayout.request_eq hexpressible hholds]

/-- A rehearsal whose limit on snippets and whose corpus directory are the default ones. -/
def rehearsal : Config where
  fixturesDir := ⟨"saved pages"⟩
  maxLength := 300
  crossLimit := Size.largest
  randomSeed := 7
  nesting := .nearest
  dryRun := true

def rehearsalItems : List Item :=
  [.apart .maxLength "300", .flag .json, .joined .nesting "nearest", .directory ⟨"saved pages"⟩,
    .joined .randomSeed "+007", .flag .dryRun, .apart .crossLimit "18446744073709551615"]

theorem every_layout_is_read_of_rehearsal :
    IsExpressible rehearsal ∧ IsLayout rehearsal true rehearsalItems ∧
      parse ["--max-len", "300", "--json", "--nesting=nearest", "saved pages", "--rng-seed=+007",
        "--dry-run", "--cross-limit", "18446744073709551615"] = .run rehearsal true := by
  have hexpressible : IsExpressible rehearsal := by
    refine ⟨⟨?_, ?_⟩, ⟨?_, ?_⟩, ?_, ?_, ?_⟩ <;> decide
  have hlayout : IsLayout rehearsal true rehearsalItems := by
    refine ⟨Or.inr (Or.inl ⟨rfl, rfl⟩), fun s => ?_, rfl, rfl⟩
    cases s with
    | maxLength => exact Or.inl ⟨_, rfl, (Size.ofText?_eq_some_iff.mp rfl).1⟩
    | mutateLimit => exact Or.inr ⟨rfl, rfl⟩
    | crossLimit => exact Or.inl ⟨_, rfl, (Size.ofText?_eq_some_iff.mp rfl).1⟩
    | randomSeed => exact Or.inl ⟨_, rfl, (Size.ofText?_eq_some_iff.mp rfl).1⟩
    | nesting => exact Or.inl ⟨_, rfl, rfl⟩
  exact ⟨hexpressible, hlayout,
    (every_layout_is_read rehearsal hexpressible true).2 rehearsalItems hlayout⟩

end MarkupSeeds.CommandLine
