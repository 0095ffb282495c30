import Collate.Command.Arguments
import Collate.Command.Directory
import Collate.Correction

/-!
# Running commands

A command looks at files and ends with an outcome: what it prints, its exit code, and the text it
writes, if any.  Settings are read before the input, and nothing is written before all that
can fail has been done.

* `Failure`            what ends a command with exit code 2;
* `Outcome`            what a command does;
* `Command.run`        a command;
* `Command.settle`     a command whose text may be refused;
* `Outcome.ofArguments` a whole command line in a directory;
* `Directory.after`    the directory behind it.
-/

namespace Collate

/-- what ends a command with exit code 2 -/
inductive Failure where
  | options
  | settingsUnreadable (path : String) (error : FileError)
  | settingsRefused (path : String) (error : SettingsError)
  | inputUnreadable (path : String) (error : FileError)
  | inputRefused (message : String)
  | uncorrected (error : CorrectionError)
  | outputUnwritable (path : String) (error : FileError)
  | fault (fault : Fault)

namespace Failure

def code : Failure → String
  | options => "CANON-CLI-ARGS-0001"
  | settingsUnreadable .. => "CANON-IO-READ-0002"
  | settingsRefused .. => "CANON-CONFIG-0001"
  | inputUnreadable .. => "CANON-IO-READ-0001"
  | inputRefused _ => "CANON-READ-0001"
  | uncorrected _ => "CANON-FIX-0001"
  | outputUnwritable .. => "CANON-IO-WRITE-0001"
  | fault _ => "CANON-LINT-0001"

def stage : Failure → Stage
  | options | settingsUnreadable .. | settingsRefused .. => .config
  | inputUnreadable .. | inputRefused _ => .read
  | uncorrected _ | outputUnwritable .. => .correction
  | fault _ => .lint

def message : Failure → String
  | options =>
    "--report-json requires --write (otherwise stdout would be the corrected source)"
  | settingsUnreadable path error => "read config " ++ path ++ ": " ++ error.message
  | settingsRefused path error => path ++ ": " ++ error.message
  | inputUnreadable path error => "read input " ++ path ++ ": " ++ error.message
  | inputRefused message => message
  | uncorrected error => error.message
  | outputUnwritable path error => "write " ++ path ++ ": " ++ error.message
  | fault _ => "the nodes do not fit the text"

end Failure

/-- what a command does -/
structure Outcome where
  exit : Nat
  stdout : String
  stderr : String
  /-- the path and the text that are written -/
  written : Option (String × Text)
  deriving DecidableEq, Repr

namespace Outcome

def silent (exit : Nat) : Outcome :=
  ⟨exit, "", "", none⟩

/-- the arguments make no command -/
def usage : Outcome :=
  { silent 2 with stderr := "usage" }

end Outcome

/-- the counts that a report on a correction has -/
structure CorrectionCounts where
  passes : Nat
  applied : Nat
  deriving DecidableEq, Repr

def toolReportVersion : String := "canon.tool.report@0.1.0"

def toolReportData (command input : String) (diagnostics : List Diagnostic)
    (counts : Option CorrectionCounts) (exit : Nat) : Json :=
  .obj ([("schema_version", .str toolReportVersion), ("command", .str command),
      ("ok", .bool (exit == 0)), ("in", .str input),
      ("diagnostics_count", .ofNat diagnostics.length)]
    ++ optionalField "diagnostics"
        (if diagnostics.isEmpty then none else some (.arr (diagnostics.map Diagnostic.toJson)))
    ++ optionalField "passes" (counts.map (fun c => .ofNat c.passes))
    ++ optionalField "applied" (counts.map (fun c => .ofNat c.applied))
    ++ [("exit_code", .ofNat exit)])

/-- the report of a command, on a line of its own -/
def toolReport (command input : String) (diagnostics : List Diagnostic)
    (counts : Option CorrectionCounts) (exit : Nat) : String :=
  (toolReportData command input diagnostics counts exit).render ++ "\n"

def offenseLine (input : String) (d : Diagnostic) : String :=
  let (line, column) :=
    match d.location with
    | some location => (location.start.line, location.start.column)
    | none => (0, 0)
  input ++ s!":{line}:{column}: " ++ d.code ++ ": " ++ d.message ++ "\n"

def offenseLines (input : String) (diagnostics : List Diagnostic) : String :=
  String.join (diagnostics.map (offenseLine input))

namespace Command

/-- the settings under a path; without a path, the defaults -/
def loadSettings (files : Files) : Option String → Except Failure Settings
  | none => .ok .default
  | some path =>
    match files path with
    | .ok t => (Settings.ofText t).mapError (.settingsRefused path)
    | .error .notText => .error (.settingsRefused path .notData)
    | .error error => .error (.settingsUnreadable path error)

def loadInput (files : Files) (path : String) : Except Failure Text :=
  (files path).mapError (.inputUnreadable path)

def lintText (t : Text) (s : Settings) : Except Failure Report :=
  match DocumentReader.standard 0 t with
  | .error message => .error (.inputRefused message)
  | .ok document => (document.lint s true).mapError .fault

def fail (command input : String) (reportJson : Bool) (failure : Failure) : Outcome :=
  if reportJson then
    let finding := Diagnostic.failure failure.code failure.stage failure.message
    { Outcome.silent 2 with stdout := toolReport command input [finding] none 2 }
  else
    { Outcome.silent 2 with
      stderr := "canon " ++ command ++ ": " ++ input ++ ": " ++ failure.code ++ ": "
        ++ failure.message ++ "\n" }

def exitFor (r : Report) : Nat :=
  if r.ok then 0 else 1

def runCheck (files : Files) (input : String) (config : Option String) (reportJson : Bool) :
    Except Failure Outcome := do
  let s ← loadSettings files config
  let t ← loadInput files input
  let report ← lintText t s
  let exit := exitFor report
  let stdout :=
    if reportJson then toolReport "check" input report.diagnostics none exit
    else offenseLines input report.diagnostics
  return { Outcome.silent exit with stdout := stdout }

/-- what a correction prints and writes, given the report on the corrected text -/
def fixOutcome (input : String) (write reportJson : Bool) (c : Correction) (report : Report) :
    Outcome :=
  let exit := exitFor report
  let printed := if write then "" else String.ofList c.text
  let lines := offenseLines input report.diagnostics
  let summary := toolReport "fix" input report.diagnostics (some ⟨c.passes, c.applied⟩) exit
  { exit := exit
    stdout := if reportJson then printed ++ summary else printed
    stderr := if reportJson then "" else lines
    written := if write && decide (0 < c.applied) then some (input, c.text) else none }

def runFix (files : Files) (input : String) (config : Option String) (write reportJson : Bool) :
    Except Failure Outcome := do
  if reportJson && !write then
    throw .options
  else
    let s ← loadSettings files config
    let t ← loadInput files input
    let corrected ← (Correction.run .standard s t).mapError Failure.uncorrected
    let report ← lintText corrected.text s
    return fixOutcome input write reportJson corrected report

def ruleLines : String :=
  String.join (Rule.all.map (fun r => r.name ++ ": " ++ r.message ++ "\n"))

def failed : Command → Failure → Outcome
  | .check input _ reportJson, failure => fail "check" input reportJson failure
  | .fix input _ _ reportJson, failure => fail "fix" input reportJson failure
  | .rules, _ | .help _, _ => .silent 2

/-- what a command does, unless it fails -/
def run? (files : Files) : Command → Except Failure Outcome
  | .check input config reportJson => runCheck files input config reportJson
  | .fix input config write reportJson => runFix files input config write reportJson
  | .rules => .ok { Outcome.silent 0 with stdout := ruleLines }
  | .help topic => .ok { Outcome.silent 0 with stdout := topic.render }

/-- what a command does with the files it can see -/
def run (files : Files) (command : Command) : Outcome :=
  match command.run? files with
  | .ok outcome => outcome
  | .error failure => command.failed failure

/-- what becomes of an outcome when the system refuses the text that it writes -/
def settle (command : Command) (refused : Option FileError) (o : Outcome) : Outcome :=
  match o.written, refused with
  | some (path, _), some error => command.failed (.outputUnwritable path error)
  | _, _ => o

end Command

/-- what a command line does in a directory -/
def Outcome.ofArguments (d : Directory) (arguments : List String) : Outcome :=
  match Command.parse arguments with
  | some command => command.run d.read
  | none => usage

/-- the directory behind an outcome -/
def Directory.after (d : Directory) (o : Outcome) : Directory :=
  match o.written with
  | some (path, t) => d.write path t
  | none => d

end Collate
