import Collate.Proofs.Command.Printed

/-!
# Check and fix agree

Both commands are one computation and a way to print its result.  For `check` it is the report on
the input, for `fix` the correction of the input and the report on the corrected text.  What the
options change is in the printing alone.

* `Command.checked`, `Command.mended`   the two computations;
* `Directory.read_write`                what is read behind a write;
* `Correction.text_of_applied_eq_zero`  a correction without edits keeps the text;
* `Outcome.Summarises`                  an outcome with a report stands for one that prints lines;
* `Command.fix_agrees_check`            a check behind a fix, a fix without writing, and reports.
-/

namespace Collate

/-! ## the directory behind a write -/

namespace Directory
variable {d : Directory} {path : String} {names : List String} {old : Text}

theorem step_write (t : Text) (hplace : d.locate path = .ok (.inside names))
    (hold : d.items.lookup names = some (.text old)) (place : FilePlace) (name : String) :
    (d.write path t).step place name = d.step place name := by
  rw [step, step, contentAt?_write t hplace hold]
  by_cases hsame : place = .inside names
  · subst hsame
    have hat : d.contentAt? (.inside names) = some (.text old) := by simp only [contentAt?, hold]
    rw [if_pos rfl, hat]
  · rw [if_neg hsame]

theorem locate_write (t : Text) (hplace : d.locate path = .ok (.inside names))
    (hold : d.items.lookup names = some (.text old)) (other : String) :
    (d.write path t).locate other = d.locate other := by
  have hstep : (d.write path t).step = d.step :=
    funext fun place => funext fun name => step_write t hplace hold place name
  rw [locate, locate, hstep]

theorem read_write_self (t : Text) (hread : d.read path = .ok old) :
    (d.write path t).read path = .ok t := by
  obtain ⟨names, hplace, hold⟩ := read_eq_ok hread
  rw [read, find, locate_write t hplace hold, hplace]
  dsimp only [bind, Except.bind]
  rw [contentAt?_write t hplace hold, if_pos rfl]
  rfl

theorem read_write_other (t : Text) (hread : d.read path = .ok old) {other : String}
    (hne : d.locate other ≠ d.locate path) : (d.write path t).read other = d.read other := by
  obtain ⟨names, hplace, hold⟩ := read_eq_ok hread
  rw [hplace] at hne
  rw [read, read, find, find, locate_write t hplace hold]
  cases hother : d.locate other with
  | error e => rfl
  | ok place =>
    have hplaces : place ≠ .inside names := by
      rintro rfl
      exact hne hother
    dsimp only [bind, Except.bind]
    rw [contentAt?_write t hplace hold, if_neg hplaces]

end Directory

/-! ## corrections without edits -/

namespace Correction
variable {reader : DocumentReader} {s : Settings} {t mended : Text} {pass count : Nat}

theorem round_count_pos (h : round reader s pass t = .ok (some (mended, count))) : 0 < count := by
  obtain ⟨edits, -, h⟩ := bind_eq_ok (x := editsOf reader s pass t) h
  split at h
  next => exact nomatch h
  next hedits =>
    split at h
    next =>
      obtain ⟨-, rfl⟩ := Prod.mk.inj (Option.some.inj (Except.ok.inj h))
      exact List.length_pos_iff.mpr (fun hnil => hedits (List.isEmpty_iff.mpr hnil))
    next => exact nomatch h

theorem proceed_applied {c : Correction} (left : Nat) : ∀ done : Correction,
    proceed reader s left done = .ok c →
      done.applied < c.applied ∨ (c.applied = done.applied ∧ c.text = done.text) := by
  induction left with
  | zero =>
    intro done h
    rw [← Except.ok.inj h]
    exact .inr ⟨rfl, rfl⟩
  | succ left ih =>
    intro done h
    rw [proceed] at h
    split at h
    next => cases h
    next =>
      rw [← Except.ok.inj h]
      exact .inr ⟨rfl, rfl⟩
    next mended count hround =>
      have hcount := round_count_pos hround
      refine .inl ?_
      rcases ih _ h with hlt | ⟨heq, -⟩
      · change done.applied + count < c.applied at hlt
        omega
      · change c.applied = done.applied + count at heq
        omega

theorem text_of_applied_eq_zero {c : Correction} (h : run reader s t = .ok c)
    (happlied : c.applied = 0) : c.text = t := by
  rcases proceed_applied passLimit _ h with hlt | ⟨-, htext⟩
  · exact absurd (happlied ▸ hlt) (Nat.not_lt_zero _)
  · exact htext

end Correction

/-! ## the two computations -/

namespace Command

def checked (files : Files) (input : String) (config : Option String) : Except Failure Report := do
  let s ← loadSettings files config
  let t ← loadInput files input
  lintText t s

/-- the correction of the input, and the report on the corrected text -/
def mended (files : Files) (input : String) (config : Option String) :
    Except Failure (Correction × Report) := do
  let s ← loadSettings files config
  let t ← loadInput files input
  let corrected ← (Correction.run .standard s t).mapError Failure.uncorrected
  let report ← lintText corrected.text s
  return (corrected, report)

/-- what a check prints, given the report -/
def checkOutcome (input : String) (reportJson : Bool) (report : Report) : Outcome :=
  { Outcome.silent (exitFor report) with
    stdout := if reportJson then toolReport "check" input report.diagnostics none (exitFor report)
      else offenseLines input report.diagnostics }

variable {files : Files} {input : String} {config : Option String}

theorem runCheck_eq (files : Files) (input : String) (config : Option String) (reportJson : Bool) :
    runCheck files input config reportJson
      = (checked files input config).map (checkOutcome input reportJson) := by
  unfold runCheck checked
  cases loadSettings files config with
  | error failure => rfl
  | ok s =>
    cases loadInput files input with
    | error failure => rfl
    | ok t =>
      show (lintText t s >>= _) = (lintText t s).map _
      cases lintText t s with
      | error failure => rfl
      | ok report => rfl

theorem runFix_eq (files : Files) (input : String) (config : Option String) {write reportJson : Bool}
    (h : (reportJson && !write) = false) : runFix files input config write reportJson
      = (mended files input config).map (fun found =>
          fixOutcome input write reportJson found.1 found.2) := by
  unfold runFix mended
  rw [if_neg (by simp [h])]
  cases loadSettings files config with
  | error failure => rfl
  | ok s =>
    cases loadInput files input with
    | error failure => rfl
    | ok t =>
      show ((Correction.run .standard s t).mapError Failure.uncorrected >>= _)
        = ((Correction.run .standard s t).mapError Failure.uncorrected >>= _).map _
      cases (Correction.run .standard s t).mapError Failure.uncorrected with
      | error failure => rfl
      | ok c =>
        show (lintText c.text s >>= _) = (lintText c.text s >>= _).map _
        cases lintText c.text s with
        | error failure => rfl
        | ok report => rfl

theorem mended_eq_ok {c : Correction} {report : Report}
    (h : mended files input config = .ok (c, report)) :
    ∃ s old, loadSettings files config = .ok s ∧ files input = .ok old ∧
      Correction.run .standard s old = .ok c ∧ lintText c.text s = .ok report := by
  obtain ⟨s, hsettings, h⟩ := bind_eq_ok h
  obtain ⟨old, hinput, h⟩ := bind_eq_ok h
  obtain ⟨c', hcorrected, h⟩ := bind_eq_ok h
  obtain ⟨report', hreport, h⟩ := bind_eq_ok h
  obtain ⟨rfl, rfl⟩ := Prod.mk.inj (Except.ok.inj h)
  exact ⟨s, old, hsettings, mapError_eq_ok hinput, mapError_eq_ok hcorrected, hreport⟩

theorem checked_of_ok {s : Settings} {t : Text} (hsettings : loadSettings files config = .ok s)
    (hinput : files input = .ok t) : checked files input config = lintText t s := by
  rw [checked, hsettings]
  show (loadInput files input >>= _) = _
  rw [loadInput, hinput]
  rfl

theorem checked_oneLine {report : Report} (h : checked files input config = .ok report) :
    ∀ x ∈ report.diagnostics, x.OneLine := by
  obtain ⟨s, -, h⟩ := bind_eq_ok h
  obtain ⟨t, -, hreport⟩ := bind_eq_ok h
  exact lintText_oneLine hreport

/-- settings depend on nothing but the file they are read from -/
theorem loadSettings_congr {files' : Files} (h : ∀ path ∈ config, files path = files' path) :
    loadSettings files config = loadSettings files' config := by
  cases config with
  | none => rfl
  | some path => rw [loadSettings, loadSettings, h path rfl]

/-! ## whole commands -/

/-- what a command does in a directory that may refuse the text it writes -/
def perform (command : Command) (d : Directory) (refused : Option FileError) : Outcome :=
  command.settle refused (command.run d.read)

theorem settle_of_written_eq_none {command : Command} {o : Outcome} (refused : Option FileError)
    (h : o.written = none) : command.settle refused o = o := by
  simp only [settle, h]

variable {d : Directory} {refused : Option FileError}

theorem perform_check (d : Directory) (refused : Option FileError) (input : String)
    (config : Option String) (reportJson : Bool) :
    (check input config reportJson).perform d refused
      = match checked d.read input config with
        | .ok report => checkOutcome input reportJson report
        | .error failure => fail "check" input reportJson failure := by
  have hrun : (check input config reportJson).run d.read
      = match checked d.read input config with
        | .ok report => checkOutcome input reportJson report
        | .error failure => fail "check" input reportJson failure := by
    rw [run, run?, runCheck_eq]
    cases checked d.read input config with
    | ok report => rfl
    | error failure => rfl
  rw [perform, hrun]
  cases checked d.read input config with
  | ok report => exact settle_of_written_eq_none refused rfl
  | error failure => exact settle_of_written_eq_none refused (fail_written ..)

theorem perform_fix (d : Directory) (refused : Option FileError) (input : String)
    (config : Option String) {write reportJson : Bool} (h : (reportJson && !write) = false) :
    (fix input config write reportJson).perform d refused
      = match mended d.read input config with
        | .ok (c, report) =>
          (fix input config write reportJson).settle refused
            (fixOutcome input write reportJson c report)
        | .error failure => fail "fix" input reportJson failure := by
  rw [perform, run, run?, runFix_eq d.read input config h]
  cases mended d.read input config with
  | ok found => rfl
  | error failure => exact settle_of_written_eq_none refused (fail_written ..)

@[simp] theorem fail_exit (command input : String) (reportJson : Bool) (failure : Failure) :
    (fail command input reportJson failure).exit = 2 := by
  unfold fail
  split <;> rfl

/-- `fix --write` either fails or ends with the correction of its input -/
theorem perform_fix_cases (d : Directory) (refused : Option FileError) (input : String)
    (config : Option String) (reportJson : Bool) :
    ((fix input config true reportJson).perform d refused).exit = 2 ∨
      ∃ c report, mended d.read input config = .ok (c, report) ∧
        (fix input config true reportJson).perform d refused
          = fixOutcome input true reportJson c report := by
  rw [perform_fix d refused input config (by simp)]
  cases mended d.read input config with
  | error failure => exact .inl (fail_exit ..)
  | ok found =>
    obtain ⟨c, report⟩ := found
    show (settle _ refused (fixOutcome input true reportJson c report)).exit = 2 ∨ _
    cases hwritten : (fixOutcome input true reportJson c report).written with
    | none => exact .inr ⟨c, report, rfl, settle_of_written_eq_none refused hwritten⟩
    | some pair =>
      cases refused with
      | none => exact .inr ⟨c, report, rfl, by simp only [settle, hwritten]⟩
      | some error =>
        refine .inl ?_
        simp only [settle, hwritten, failed, fail_exit]

/-- behind a correction the input holds the corrected text, and all else is as it was -/
theorem read_after_fix {s : Settings} {old : Text} {c : Correction} (hinput : d.read input = .ok old)
    (hcorrected : Correction.run .standard s old = .ok c) (reportJson : Bool) (report : Report) :
    (d.after (fixOutcome input true reportJson c report)).read input = .ok c.text ∧
      ∀ path, d.locate path ≠ d.locate input →
        (d.after (fixOutcome input true reportJson c report)).read path = d.read path := by
  by_cases happlied : 0 < c.applied
  · have hafter : d.after (fixOutcome input true reportJson c report) = d.write input c.text := by
      have hwritten : (fixOutcome input true reportJson c report).written = some (input, c.text) :=
        if_pos (by simpa using happlied)
      rw [Directory.after, hwritten]
    rw [hafter]
    exact ⟨Directory.read_write_self c.text hinput, fun path hne =>
      Directory.read_write_other c.text hinput hne⟩
  · have hafter : d.after (fixOutcome input true reportJson c report) = d := by
      have hwritten : (fixOutcome input true reportJson c report).written = none :=
        if_neg (by simpa using happlied)
      rw [Directory.after, hwritten]
    have hsame := Correction.text_of_applied_eq_zero hcorrected (by omega)
    rw [hafter, hsame]
    exact ⟨hinput, fun path _ => rfl⟩

end Command

/-! ## reports -/

/-- an outcome that has a report on standard output stands for one that prints the offense lines: the
report tells the exit code and how many lines there are, as data and when it is read back -/
structure Outcome.Summarises (json plain : Outcome) (command input lines : String) : Prop where
  exit_eq : json.exit = plain.exit
  after_eq : ∀ d : Directory, d.after json = d.after plain
  stderr_eq : json.stderr = ""
  report : ∃ diagnostics counts,
    let report := toolReportData command input diagnostics counts plain.exit
    json.stdout = report.render ++ "\n" ∧ report.Tells plain.exit diagnostics.length ∧
    (ReportSized diagnostics counts → ∃ found, Json.read json.stdout.toList = some found ∧
      found.Tells plain.exit diagnostics.length) ∧
    (plain.exit = 0 ∨ plain.exit = 1 → lines = offenseLines input diagnostics ∧
      lines.toList.count '\n' = diagnostics.length * (input.toList.count '\n' + 1))

namespace Command
variable {d : Directory} {refused : Option FileError} {input : String} {config : Option String}

theorem exitFor_le_word (report : Report) : exitFor report ≤ Json.largestWord := by
  rcases exitFor_le report with h | h
  all_goals
    rw [h]
    decide

theorem fail_summarises (command input lines : String) (failure : Failure) :
    (fail command input true failure).Summarises (fail command input false failure) command input
      lines where
  exit_eq := rfl
  after_eq _ := rfl
  stderr_eq := rfl
  report := by
    refine ⟨[Diagnostic.failure failure.code failure.stage failure.message], none, rfl,
      toolReportData_tells .., fun hsized => toolReport_read command input hsized (by decide), ?_⟩
    intro h
    rw [fail_exit] at h
    omega

theorem check_summarises (d : Directory) (refused : Option FileError) (input : String)
    (config : Option String) :
    ((check input config true).perform d refused).Summarises
      ((check input config false).perform d refused) "check" input
      ((check input config false).perform d refused).stdout := by
  rw [perform_check, perform_check]
  cases hchecked : checked d.read input config with
  | error failure => exact fail_summarises ..
  | ok report =>
    have hlines := offenseLines_lineFeeds input (checked_oneLine hchecked)
    exact ⟨rfl, fun _ => rfl, rfl, report.diagnostics, none, rfl, toolReportData_tells ..,
      fun hsized => toolReport_read "check" input hsized (exitFor_le_word report), fun _ => ⟨rfl, hlines⟩⟩

theorem fixOutcome_summarises (input : String) (c : Correction) {report : Report}
    (h : ∀ x ∈ report.diagnostics, x.OneLine) :
    (fixOutcome input true true c report).Summarises (fixOutcome input true false c report) "fix" input
      (fixOutcome input true false c report).stderr where
  exit_eq := rfl
  after_eq _ := rfl
  stderr_eq := rfl
  report := by
    have hstdout : (fixOutcome input true true c report).stdout
        = toolReport "fix" input report.diagnostics (some ⟨c.passes, c.applied⟩) (exitFor report) :=
      String.empty_append
    refine ⟨report.diagnostics, some ⟨c.passes, c.applied⟩, hstdout, toolReportData_tells ..,
      fun hsized => ?_, fun _ => ⟨rfl, offenseLines_lineFeeds input h⟩⟩
    rw [hstdout]
    exact toolReport_read "fix" input hsized (exitFor_le_word report)

theorem fix_summarises (d : Directory) (refused : Option FileError) (input : String)
    (config : Option String) :
    ((fix input config true true).perform d refused).Summarises
      ((fix input config true false).perform d refused) "fix" input
      ((fix input config true false).perform d refused).stderr := by
  rw [perform_fix d refused input config rfl, perform_fix d refused input config rfl]
  cases hmended : mended d.read input config with
  | error failure => exact fail_summarises ..
  | ok found =>
    obtain ⟨c, report⟩ := found
    obtain ⟨s, old, -, -, -, hreport⟩ := mended_eq_ok hmended
    have hsummary := fixOutcome_summarises input c (lintText_oneLine hreport)
    show ((fix input config true true).settle refused (fixOutcome input true true c report)).Summarises
      ((fix input config true false).settle refused (fixOutcome input true false c report)) "fix" input
      ((fix input config true false).settle refused (fixOutcome input true false c report)).stderr
    by_cases happlied : 0 < c.applied
    · have hwritten (reportJson : Bool) :
          (fixOutcome input true reportJson c report).written = some (input, c.text) :=
        if_pos (by simpa using happlied)
      cases refused with
      | none => simpa only [settle, hwritten] using hsummary
      | some error => simpa only [settle, hwritten, failed] using fail_summarises ..
    · have hwritten (reportJson : Bool) : (fixOutcome input true reportJson c report).written = none :=
        if_neg (by simpa using happlied)
      simpa only [settle, hwritten] using hsummary

/-- a run fails with a report exactly when it fails without one, and of the same failure -/
theorem run?_error_iff {files : Files} (failure : Failure) :
    ((check input config true).run? files = .error failure ↔
      (check input config false).run? files = .error failure) ∧
    ((fix input config true true).run? files = .error failure ↔
      (fix input config true false).run? files = .error failure) := by
  constructor
  · simp only [run?, runCheck_eq]
    cases checked files input config with
    | error failure' => exact Iff.rfl
    | ok report => exact ⟨(nomatch ·), (nomatch ·)⟩
  · rw [run?, run?, runFix_eq files input config rfl, runFix_eq files input config rfl]
    cases mended files input config with
    | error failure' => exact Iff.rfl
    | ok found => exact ⟨(nomatch ·), (nomatch ·)⟩

theorem perform_print {c : Correction} {report : Report}
    (h : mended d.read input config = .ok (c, report)) :
    (fix input config false false).perform d refused = fixOutcome input false false c report := by
  rw [perform_fix d refused input config rfl, h]
  exact settle_of_written_eq_none refused rfl

/-- a check behind a correction reports what the correction left -/
theorem perform_check_after {reportJson : Bool} {c : Correction} {report : Report}
    (h : mended d.read input config = .ok (c, report))
    (hconfig : ∀ path ∈ config, d.locate path ≠ d.locate input) (reportJson' : Bool) :
    (check input config reportJson').perform (d.after (fixOutcome input true reportJson c report))
      refused = checkOutcome input reportJson' report := by
  obtain ⟨s, old, hsettings, hinput, hcorrected, hreport⟩ := mended_eq_ok h
  obtain ⟨hself, hothers⟩ := read_after_fix hinput hcorrected reportJson report
  rw [loadSettings_congr (fun path hpath => (hothers path (hconfig path hpath)).symm)] at hsettings
  rw [perform_check, checked_of_ok hsettings hself, hreport]

/-- **Check and fix agree.**  A check behind `fix --write` ends with the same exit code and reports
what the latter has left, provided that the settings are not in the file itself; without `--write`
the corrected text is printed; and a report changes neither the exit code nor the files. -/
theorem fix_agrees_check (d : Directory) (input : String) (config : Option String)
    (refused : Option FileError) :
    (∀ reportJson : Bool,
      let fixed := (fix input config true reportJson).perform d refused
      let printed := (fix input config false false).perform d refused
      fixed.exit = 0 ∨ fixed.exit = 1 → ∃ c report,
        fixed = fixOutcome input true reportJson c report ∧
        printed.exit = fixed.exit ∧
        (d.after fixed).read input = .ok printed.stdout.toList ∧
        ((∀ path ∈ config, d.locate path ≠ d.locate input) → ∀ reportJson' refused',
          let later := (check input config reportJson').perform (d.after fixed) refused'
          later = checkOutcome input reportJson' report ∧ later.exit = fixed.exit)) ∧
    (((check input config true).perform d refused).Summarises
      ((check input config false).perform d refused) "check" input
      ((check input config false).perform d refused).stdout) ∧
    (((fix input config true true).perform d refused).Summarises
      ((fix input config true false).perform d refused) "fix" input
      ((fix input config true false).perform d refused).stderr) ∧
    ∀ failure,
      ((check input config true).run? d.read = .error failure ↔
        (check input config false).run? d.read = .error failure) ∧
      ((fix input config true true).run? d.read = .error failure ↔
        (fix input config true false).run? d.read = .error failure) := by
  refine ⟨fun reportJson => ?_, check_summarises .., fix_summarises .., run?_error_iff⟩
  intro fixed printed hexit
  rcases perform_fix_cases d refused input config reportJson with htwo | ⟨c, report, hmended, hfixed⟩
  · change fixed.exit = 2 at htwo
    omega
  · change fixed = _ at hfixed
    have hprinted : printed = fixOutcome input false false c report := perform_print hmended
    obtain ⟨s, old, -, hinput, hcorrected, -⟩ := mended_eq_ok hmended
    refine ⟨c, report, hfixed, ?_, ?_, fun hconfig reportJson' refused' => ?_⟩
    · rw [hprinted, hfixed]
      rfl
    · rw [hprinted, hfixed, (read_after_fix hinput hcorrected reportJson report).1]
      exact congrArg Except.ok (String.toList_ofList).symm
    · intro later
      have hlater : later = checkOutcome input reportJson' report := by
        show (check input config reportJson').perform (d.after fixed) refused' = _
        rw [hfixed]
        exact perform_check_after hmended hconfig reportJson'
      refine ⟨hlater, ?_⟩
      rw [hlater, hfixed]
      rfl

/-- A check of a text that is not too long prints as many lines as its report, read back, tells. -/
theorem read_perform_check {count : Nat} (hexit : ((check input config false).perform d refused).exit ≠ 2)
    (hpath : '\n' ∉ input.toList)
    (hlines : ((check input config false).perform d refused).stdout.toList.count '\n' = count)
    (hcount : count ≤ Json.largestWord)
    (hsize : ∀ t, d.read input = .ok t → t.size ≤ Json.largestWord) :
    ∃ found, Json.read ((check input config true).perform d refused).stdout.toList = some found ∧
      found.Tells ((check input config true).perform d refused).exit count := by
  rw [perform_check] at hexit hlines ⊢
  cases hchecked : checked d.read input config with
  | error failure =>
    rw [hchecked] at hexit
    exact absurd (fail_exit ..) hexit
  | ok report =>
    rw [hchecked] at hlines
    have hlength : report.diagnostics.length = count := by
      rw [← hlines]
      show _ = (offenseLines input report.diagnostics).toList.count '\n'
      rw [offenseLines_lineFeeds input (checked_oneLine hchecked), List.count_eq_zero_of_not_mem hpath,
        Nat.zero_add, Nat.mul_one]
    obtain ⟨s, -, hrest⟩ := bind_eq_ok hchecked
    obtain ⟨t, hinput, hreport⟩ := bind_eq_ok hrest
    have hfindings := lintText_sized (hsize t (mapError_eq_ok hinput)) hreport
    have hsized : ReportSized report.diagnostics none :=
      ⟨hlength ▸ hcount, hfindings, (fun _ hc => nomatch hc), (fun _ hc => nomatch hc)⟩
    rw [← hlength]
    exact toolReport_read "check" input hsized (exitFor_le_word report)

/-- One literal is mended, and comments hold back two others.  A check behind the correction says so,
and its report, read back, counts two findings. -/
theorem fix_agrees_check_held_back :
    let d : Directory := ⟨[(["a"], .text ("x = {b: 1, a: 2}\ny = \x7b\n  d: 1, # e\n  c: 2\n\x7d\n"
        ++ "z = \x7b\n  g: 1, # h\n  f: 2\n\x7d").toList),
      (["c"], .text "\x7b\"Canon/KeywordShorthand\":\x7b\"Enabled\":false\x7d\x7d".toList)]⟩
    let fixed := (fix "a" (some "c") true false).perform d none
    let later := (check "a" (some "c") false).perform (d.after fixed) none
    let reported := (check "a" (some "c") true).perform (d.after fixed) none
    fixed.stderr = "a:2:5: Canon/SortHash: Sort hash keys alphabetically.\n"
        ++ "a:6:5: Canon/SortHash: Sort hash keys alphabetically.\n" ∧
    (d.after fixed).read "a" = .ok ("x = {a: 2, b: 1}\ny = \x7b\n  d: 1, # e\n  c: 2\n\x7d\n"
      ++ "z = \x7b\n  g: 1, # h\n  f: 2\n\x7d").toList ∧
    later.stdout = fixed.stderr ∧ later.exit = 1 ∧ reported.exit = 1 ∧
    ((fix "a" (some "c") true true).perform d none).exit = 1 ∧
    ∃ found, Json.read reported.stdout.toList = some found ∧ found.Tells 1 2 := by
  intro d fixed later reported
  have hfix : (fixed.exit, fixed.stderr)
      = (1, "a:2:5: Canon/SortHash: Sort hash keys alphabetically.\n"
        ++ "a:6:5: Canon/SortHash: Sort hash keys alphabetically.\n") := by
    decide +kernel
  obtain ⟨hexit, hstderr⟩ := Prod.mk.inj hfix
  have hprinted : ((fix "a" (some "c") false false).perform d none).stdout
      = "x = {a: 2, b: 1}\ny = \x7b\n  d: 1, # e\n  c: 2\n\x7d\n"
        ++ "z = \x7b\n  g: 1, # h\n  f: 2\n\x7d" := by
    decide +kernel
  have hplaces : ((d.locate "c").toOption, (d.locate "a").toOption)
      = (some (.inside ["c"]), some (.inside ["a"])) := by
    decide +kernel
  obtain ⟨hsettings, hinput⟩ := Prod.mk.inj hplaces
  obtain ⟨hagree, -, hreports, -⟩ := fix_agrees_check d "a" (some "c") none
  obtain ⟨c, report, hfixed, -, hread, hlater⟩ := hagree false (.inr hexit)
  have hapart : ∀ path ∈ some "c", d.locate path ≠ d.locate "a" := by
    rintro path ⟨⟩
    rw [eq_ok_of_toOption hsettings, eq_ok_of_toOption hinput]
    simp
  obtain ⟨hcheck, hsame⟩ := hlater hapart false none
  obtain ⟨hreported, hreportedExit⟩ := hlater hapart true none
  have hstdout : later.stdout = fixed.stderr := by
    show later.stdout = ((fix "a" (some "c") true false).perform d none).stderr
    rw [hfixed]
    exact congrArg Outcome.stdout hcheck
  refine ⟨hstderr, hprinted ▸ hread, hstdout, hsame.trans hexit, hreportedExit.trans hexit,
    hreports.exit_eq.trans hexit, ?_⟩
  have hone := hreportedExit.trans hexit
  rw [← hone]
  refine read_perform_check (by rw [hsame.trans hexit]; decide) (by decide) ?_ (by decide) ?_
  · rw [show ((check "a" (some "c") false).perform (d.after fixed) none).stdout = _ from
      hstdout.trans hstderr]
    decide +kernel
  · intro t ht
    obtain rfl := Except.ok.inj (hread.symm.trans ht)
    rw [show ((fix "a" (some "c") false false).perform d none).stdout = _ from hprinted]
    decide +kernel

end Command

end Collate
