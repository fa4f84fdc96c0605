import MarkupSeeds.CommandLine
import MarkupSeeds.Proofs.CommandLine.Numeral

/-!
# What a draft holds

A draft has a place for each setting and each flag.  What an argument fills is that place and no
other, and the configuration made of the draft has each value from its own place.
-/

namespace MarkupSeeds.CommandLine

/-! ## Values of settings -/

namespace Setting

/-- What a setting is set to. -/
def Value : Setting → Type
  | nesting => Markup.Nesting
  | _ => Nat

def value (config : Config) : (s : Setting) → s.Value
  | maxLength => config.maxLength
  | mutateLimit => config.mutateLimit
  | crossLimit => config.crossLimit
  | randomSeed => config.randomSeed.toNat
  | nesting => config.nesting

def read? : (s : Setting) → String → Option s.Value
  | maxLength, text | mutateLimit, text | crossLimit, text | randomSeed, text => Size.ofText? text
  | nesting, text => nesting? text

end Setting

def nestingName : Markup.Nesting → String
  | .nearest => "nearest"
  | .balanced => "balanced"

theorem nesting?_eq_some_iff {text : String} {nesting : Markup.Nesting} :
    nesting? text = some nesting ↔ text = nestingName nesting := by
  constructor
  · intro h
    unfold nesting? at h
    split at h <;> cases h <;> rfl
  · rintro rfl
    cases nesting <;> rfl

namespace Draft

variable {d : Draft} {s t : Setting} {v : s.Value} {text : String} {f g : Flag}

def value? (d : Draft) : (s : Setting) → Option s.Value
  | .maxLength => d.maxLength
  | .mutateLimit => d.mutateLimit
  | .crossLimit => d.crossLimit
  | .randomSeed => d.randomSeed
  | .nesting => d.nesting

def set (d : Draft) : (s : Setting) → s.Value → Draft
  | .maxLength, v => { d with maxLength := some v }
  | .mutateLimit, v => { d with mutateLimit := some v }
  | .crossLimit, v => { d with crossLimit := some v }
  | .randomSeed, v => { d with randomSeed := some v }
  | .nesting, v => { d with nesting := some v }

@[simp]
theorem value?_set_self : (d.set s v).value? s = some v := by
  cases s <;> rfl

theorem value?_set_of_ne (hne : t ≠ s) : (d.set s v).value? t = d.value? t := by
  cases s <;> cases t <;> first | rfl | exact absurd rfl hne

@[simp]
theorem fixturesDir_set : (d.set s v).fixturesDir = d.fixturesDir := by
  cases s <;> rfl

@[simp]
theorem corpusDir_set : (d.set s v).corpusDir = d.corpusDir := by
  cases s <;> rfl

theorem assign_eq_some (hempty : d.value? s = none) (hread : s.read? text = some v) :
    d.assign s text = some (d.set s v) := by
  cases s <;> simp only [value?] at hempty <;> simp only [Setting.read?] at hread <;>
    rw [assign, hempty, hread] <;> rfl

/-! ## Flags -/

def raised (d : Draft) : Flag → Bool
  | .dryRun => d.dryRun
  | .json => d.json

def up (d : Draft) : Flag → Draft
  | .dryRun => { d with dryRun := true }
  | .json => { d with json := true }

@[simp]
theorem raised_up_self : (d.up f).raised f = true := by
  cases f <;> rfl

theorem raised_up_of_ne (hne : g ≠ f) : (d.up f).raised g = d.raised g := by
  cases f <;> cases g <;> first | rfl | exact absurd rfl hne

@[simp]
theorem value?_up : (d.up f).value? s = d.value? s := by
  cases f <;> cases s <;> rfl

@[simp]
theorem fixturesDir_up : (d.up f).fixturesDir = d.fixturesDir := by
  cases f <;> rfl

@[simp]
theorem corpusDir_up : (d.up f).corpusDir = d.corpusDir := by
  cases f <;> rfl

@[simp]
theorem raised_set : (d.set s v).raised f = d.raised f := by
  cases s <;> cases f <;> rfl

theorem raise_eq_some (hdown : d.raised f = false) : d.raise f = some (d.up f) := by
  cases f <;> simp only [raised] at hdown <;> rw [raise, hdown] <;> rfl

/-! ## Directories -/

/-- Among the directories given so far there is room for one more. -/
theorem exists_place {path : Path} {given : List Path} (hfixtures : d.fixturesDir = given[0]?)
    (hcorpus : d.corpusDir = given[1]?) (hroom : given.length ≤ 1) (hne : path.text ≠ "") :
    ∃ d', d.place path.text = some d' ∧ d'.fixturesDir = (given ++ [path])[0]? ∧
      d'.corpusDir = (given ++ [path])[1]? ∧ (∀ s, d'.value? s = d.value? s) ∧
      ∀ f, d'.raised f = d.raised f := by
  match given with
  | [] =>
      refine ⟨{ d with fixturesDir := some path }, ?_, rfl, hcorpus, ?_, ?_⟩
      · rw [place, if_neg hne, hfixtures]
        rfl
      · exact fun s => by cases s <;> rfl
      · exact fun f => by cases f <;> rfl
  | [first] =>
      refine ⟨{ d with corpusDir := some path }, ?_, hfixtures, rfl, ?_, ?_⟩
      · rw [place, if_neg hne, hfixtures, hcorpus]
        rfl
      · exact fun s => by cases s <;> rfl
      · exact fun f => by cases f <;> rfl
  | first :: second :: rest =>
      rw [List.length_cons, List.length_cons] at hroom
      omega

/-! ## The configuration of a draft -/

theorem value_config_of_some {c : Config} (hgiven : d.value? s = some (s.value c)) :
    s.value d.config = s.value c := by
  cases s with
  | randomSeed =>
      have hmap : d.randomSeed.map UInt64.ofNat = some c.randomSeed := by
        rw [show d.randomSeed = some c.randomSeed.toNat from hgiven, Option.map_some,
          UInt64.ofNat_toNat]
      exact congrArg (fun seed => (seed.getD defaultRandomSeed).toNat) hmap
  | maxLength | mutateLimit | crossLimit | nesting => exact congrArg (Option.getD · _) hgiven

theorem value_config_of_none (hempty : d.value? s = none) :
    s.value d.config = s.value ({} : Config) := by
  cases s with
  | randomSeed =>
      have hmap : d.randomSeed.map UInt64.ofNat = none := Option.map_eq_none_iff.mpr hempty
      exact congrArg (fun seed => (seed.getD defaultRandomSeed).toNat) hmap
  | maxLength | mutateLimit | crossLimit | nesting => exact congrArg (Option.getD · _) hempty

end Draft

theorem config_ext {a b : Config} (hfixtures : a.fixturesDir = b.fixturesDir)
    (hcorpus : a.corpusDir = b.corpusDir) (hvalue : ∀ s, Setting.value a s = s.value b)
    (hdry : a.dryRun = b.dryRun) : a = b := by
  have hmax : a.maxLength = b.maxLength := hvalue .maxLength
  have hmutate : a.mutateLimit = b.mutateLimit := hvalue .mutateLimit
  have hcross : a.crossLimit = b.crossLimit := hvalue .crossLimit
  have hseed : a.randomSeed = b.randomSeed := UInt64.toNat_inj.mp (hvalue .randomSeed)
  have hnesting : a.nesting = b.nesting := hvalue .nesting
  cases a
  cases b
  simp_all only

end MarkupSeeds.CommandLine
