import MarkupSeeds.CommandLine
import MarkupSeeds.LogFilter
import MarkupSeeds.Run
import MarkupSeeds.Text.Hex

/-!
# The program

What the command-line program prints, logs and leaves on the disk, as a function of the
disk it finds, its arguments, and the setting of its log filter.
-/

namespace MarkupSeeds.Program

/-- Terminal control characters are shown as escapes in the log. -/
def escape (c : Char) : List Char :=
  if ['\x07', '\x08', '\x0c', '\x1b', '\x7f'].contains c then
    ['\\', 'x', Hex.digit (c.toNat / 16), Hex.digit (c.toNat % 16)]
  else if 0x80 ≤ c.toNat ∧ c.toNat ≤ 0x9F then
    ['\\', 'u', '\x7b', Hex.digit (c.toNat / 16), Hex.digit (c.toNat % 16), '\x7d']
  else [c]

def logLine (notice : Notice) : String :=
  notice.level.display ++ " " ++ String.ofList (notice.message.toList.flatMap escape)

def versionText : String := "hotmeal-seeds 0.1.0\n"

def usageText : String :=
  "Usage: hotmeal-seeds [OPTIONS] [FIXTURES_DIR] [CORPUS_DIR]\n"

def helpText : String :=
  "Build apply_parity fuzzer seeds from real-world HTML fixtures\n\n" ++ usageText ++
  "\nArguments:\n" ++
  "  [FIXTURES_DIR]  Directory of *.html fixtures [default: " ++
    defaultFixturesDir.text ++ "]\n" ++
  "  [CORPUS_DIR]    Directory to write seeds into [default: " ++
    defaultCorpusDir.text ++ "]\n" ++
  "\nOptions:\n" ++
  "      --max-len <N>       Longest snippet kept, in characters\n" ++
  "      --mutate-limit <N>  Number of snippets paired with a spaced-out copy\n" ++
  "      --cross-limit <N>   Greatest number of random draws\n" ++
  "      --rng-seed <N>      Seed of the random draws\n" ++
  "      --nesting <RULE>    How a closing tag is found: nearest or balanced\n" ++
  "      --dry-run           Count seeds without writing them\n" ++
  "      --json              Print the run report as JSON\n" ++
  "  -h, --help              Print help\n" ++
  "  -V, --version           Print version\n"

/-- How the program ends. -/
structure Ending where
  code : Nat
  output : String
  log : List String
  disk : Disk

/-- The notices of a run, closed by the error that ended it. -/
def notices (r : Run) : List Notice :=
  match r.result with
  | .ok _ => r.notices
  | .error error => r.notices ++ [⟨.error, .run, error.message⟩]

def finish (r : Run) (json : Bool) (filter : LogFilter) : Ending where
  code := match r.result with
    | .ok _ => 0
    | .error _ => 1
  output := match r.result with
    | .ok report => if json then report.json ++ "\n" else ""
    | .error _ => ""
  log := ((notices r).filter filter.shows).map logLine
  disk := r.disk

def execute (d : Disk) (arguments : List String) (logSetting : Option String) : Ending :=
  match CommandLine.parse arguments with
  | .run config json => finish (run d config) json (LogFilter.ofSetting logSetting)
  | .version => ⟨0, versionText, [], d⟩
  | .help => ⟨0, helpText, [], d⟩
  | .usageError => ⟨2, "", [usageText], d⟩

end MarkupSeeds.Program
