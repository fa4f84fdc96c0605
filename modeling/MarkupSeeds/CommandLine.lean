import MarkupSeeds.Config
import MarkupSeeds.Size

/-!
# The command line

Arguments are read from left to right.  The two directories are given by position, all
else by name.  The first argument that is out of order makes the whole line a usage
error, and a request for the version or for help is acted on where it is met.
-/

namespace MarkupSeeds.CommandLine

/-- Options that take a value, either after an equals sign or as the next argument. -/
inductive Setting
  | maxLength
  | mutateLimit
  | crossLimit
  | randomSeed
  | nesting
  deriving DecidableEq, Repr

def Setting.name : Setting → String
  | maxLength => "max-len"
  | mutateLimit => "mutate-limit"
  | crossLimit => "cross-limit"
  | randomSeed => "rng-seed"
  | nesting => "nesting"

def Setting.all : List Setting := [maxLength, mutateLimit, crossLimit, randomSeed, nesting]

/-- Options without a value. -/
inductive Flag
  | dryRun
  | json
  deriving DecidableEq, Repr

def Flag.name : Flag → String
  | dryRun => "dry-run"
  | json => "json"

def Flag.all : List Flag := [dryRun, json]

/-- What an argument is, taken by itself. -/
inductive Word
  | positional (text : String)
  | setting (setting : Setting) (value : Option String)
  | flag (flag : Flag)
  | version
  | help
  /-- Everything after this is positional. -/
  | endOfOptions
  | unknown
  deriving DecidableEq, Repr

/-- An argument that begins with two dashes, without them. -/
def Word.ofLong (text : List Char) : Word :=
  let name := String.ofList (text.takeWhile (· != '='))
  let value := match text.dropWhile (· != '=') with
    | [] => none
    | _ :: value => some (String.ofList value)
  match Setting.all.find? (·.name == name) with
  | some found => .setting found value
  | none =>
    if value.isSome then .unknown
    else match Flag.all.find? (·.name == name) with
      | some found => .flag found
      | none =>
        if name = "version" then .version else if name = "help" then .help else .unknown

def Word.ofArgument (argument : String) : Word :=
  match argument.toList with
  | ['-', '-'] => .endOfOptions
  | '-' :: '-' :: long => .ofLong long
  | '-' :: short :: _ => if short = 'V' then .version else if short = 'h' then .help else .unknown
  | _ => .positional argument

/-- What has been given so far. -/
structure Draft where
  fixturesDir : Option Path := none
  corpusDir : Option Path := none
  maxLength : Option Nat := none
  mutateLimit : Option Nat := none
  crossLimit : Option Nat := none
  randomSeed : Option Nat := none
  nesting : Option Markup.Nesting := none
  dryRun : Bool := false
  json : Bool := false
  deriving DecidableEq, Repr

def nesting? : String → Option Markup.Nesting
  | "nearest" => some .nearest
  | "balanced" => some .balanced
  | _ => none

/-- A value for a place that must still be empty. -/
def fill {A : Type} (place value : Option A) : Option (Option A) :=
  if place.isSome then none else value.map some

namespace Draft

/-- The next directory, of which there are at most two. -/
def place (d : Draft) (text : String) : Option Draft :=
  if text = "" then none
  else if d.fixturesDir.isNone then some { d with fixturesDir := some ⟨text⟩ }
  else if d.corpusDir.isNone then some { d with corpusDir := some ⟨text⟩ }
  else none

def assign (d : Draft) (setting : Setting) (value : String) : Option Draft :=
  match setting with
  | .maxLength => (fill d.maxLength (Size.ofText? value)).map ({ d with maxLength := · })
  | .mutateLimit => (fill d.mutateLimit (Size.ofText? value)).map ({ d with mutateLimit := · })
  | .crossLimit => (fill d.crossLimit (Size.ofText? value)).map ({ d with crossLimit := · })
  | .randomSeed => (fill d.randomSeed (Size.ofText? value)).map ({ d with randomSeed := · })
  | .nesting => (fill d.nesting (nesting? value)).map ({ d with nesting := · })

def raise (d : Draft) : Flag → Option Draft
  | .dryRun => if d.dryRun then none else some { d with dryRun := true }
  | .json => if d.json then none else some { d with json := true }

/-- The configuration, with defaults for what was not given. -/
def config (d : Draft) : Config where
  fixturesDir := d.fixturesDir.getD defaultFixturesDir
  corpusDir := d.corpusDir.getD defaultCorpusDir
  maxLength := d.maxLength.getD defaultMaxLength
  mutateLimit := d.mutateLimit.getD defaultMutateLimit
  crossLimit := d.crossLimit.getD defaultCrossLimit
  randomSeed := (d.randomSeed.map UInt64.ofNat).getD defaultRandomSeed
  nesting := d.nesting.getD .balanced
  dryRun := d.dryRun

end Draft

/-- What a command line asks for. -/
inductive Request
  /-- A run, with its report printed if `json` holds. -/
  | run (config : Config) (json : Bool)
  | version
  | help
  | usageError
  deriving DecidableEq, Repr

def Draft.request (d : Draft) : Request := .run d.config d.json

/-- Arguments that are positional whatever they look like. -/
def positionals (d : Draft) : List String → Request
  | [] => d.request
  | argument :: rest =>
    match d.place argument with
    | some d => positionals d rest
    | none => .usageError

/-- A value that follows as an argument of its own must not look like an option. -/
def isValue (argument : String) : Bool := argument.toList.head? != some '-'

def arguments (d : Draft) : List String → Request
  | [] => d.request
  | argument :: rest =>
    match Word.ofArgument argument with
    | .positional text =>
      match d.place text with
      | some d => arguments d rest
      | none => .usageError
    | .setting setting (some value) =>
      match d.assign setting value with
      | some d => arguments d rest
      | none => .usageError
    | .setting setting none =>
      match rest with
      | [] => .usageError
      | value :: rest =>
        if isValue value then
          match d.assign setting value with
          | some d => arguments d rest
          | none => .usageError
        else .usageError
    | .flag flag =>
      match d.raise flag with
      | some d => arguments d rest
      | none => .usageError
    | .version => .version
    | .help => .help
    | .endOfOptions => positionals d rest
    | .unknown => .usageError

/-- What the arguments after the program's name ask for. -/
def parse (words : List String) : Request := arguments {} words

end MarkupSeeds.CommandLine
