import Collate.Command.Run
import Collate.Proofs.Correction

/-!
# What command lines do to files

The only step of a command that can change a file is the last one of `fix --write`, and it is
reached when everything that can fail has succeeded.

* `Command.run_written`         what is written, and what came before it;
* `Directory.contentAt?_write`  one place changes and all others stay;
* `Directory.Mends`             a command line that mends the file at a place;
* `Directory.afterAll`          the directory after some command lines, one behind the other;
* `Directory.afterAll_mends`    a change over many command lines is a change by one of them.
-/

namespace Collate

theorem mapError_eq_ok {ε ε' α : Type} {x : Except ε α} {f : ε → ε'} {a : α}
    (h : x.mapError f = .ok a) : x = .ok a := by
  cases x with
  | error e => exact nomatch h
  | ok b => exact congrArg Except.ok (Except.ok.inj h)

/-! ## texts that were read -/

theorem DocumentReader.standard_eq_ok {pass : Nat} {t : Text} {d : Document}
    (h : standard pass t = .ok d) : Document.read t = .ok d := by
  unfold standard at h
  split at h
  next document hread => rw [hread, Except.ok.inj h]
  next => exact nomatch h

theorem Correction.read_of_run {s : Settings} {t : Text} {c : Correction}
    (h : run .standard s t = .ok c) : ∃ d, Document.read t = .ok d := by
  cases hread : Document.read t with
  | ok d => exact ⟨d, rfl⟩
  | error error =>
    have hreader : DocumentReader.standard 0 t = .error (error.display t) := by
      rw [DocumentReader.standard, hread]
    have hround : round .standard s 0 t = .error (.unreadable (error.display t)) := by
      rw [round, editsOf, hreader]
      rfl
    rw [run, passLimit, proceed, hround] at h
    cases h

namespace Command

theorem read_of_lintText {t : Text} {s : Settings} {report : Report}
    (h : lintText t s = .ok report) : ∃ d, Document.read t = .ok d := by
  unfold lintText at h
  split at h
  next => exact nomatch h
  next d hreader => exact ⟨d, DocumentReader.standard_eq_ok hreader⟩

theorem lintText_of_read {t : Text} {d : Document} (h : Document.read t = .ok d) (s : Settings) :
    ∃ report, lintText t s = .ok report := by
  obtain ⟨report, hreport, -⟩ := Document.lint_safe (Document.placed_of_read h).2 s
  refine ⟨report, ?_⟩
  rw [lintText, DocumentReader.standard, h]
  show (d.lint s true).mapError Failure.fault = .ok report
  rw [hreport]
  rfl

/-! ## what a command writes -/

theorem exitFor_le (r : Report) : exitFor r = 0 ∨ exitFor r = 1 := by
  unfold exitFor
  split
  · exact .inl rfl
  · exact .inr rfl

@[simp] theorem fail_written (command input : String) (reportJson : Bool) (failure : Failure) :
    (fail command input reportJson failure).written = none := by
  unfold fail
  split <;> rfl

@[simp] theorem failed_written (command : Command) (failure : Failure) :
    (command.failed failure).written = none := by
  cases command with
  | check input config reportJson => exact fail_written ..
  | fix input config write reportJson => exact fail_written ..
  | rules => rfl
  | help topic => rfl

theorem runCheck_written {files : Files} {input : String} {config : Option String}
    {reportJson : Bool} {o : Outcome} (h : runCheck files input config reportJson = .ok o) :
    o.written = none := by
  unfold runCheck at h
  obtain ⟨s, -, h⟩ := bind_eq_ok h
  obtain ⟨t, -, h⟩ := bind_eq_ok h
  obtain ⟨report, -, h⟩ := bind_eq_ok h
  rw [← Except.ok.inj h]
  rfl

/-- a file is mended when the settings, the input, the correction and the reading of the corrected
text have all succeeded -/
theorem runFix_eq_ok {files : Files} {input : String} {config : Option String}
    {write reportJson : Bool} {o : Outcome}
    (h : runFix files input config write reportJson = .ok o) :
    ∃ s old c report, loadSettings files config = .ok s ∧ files input = .ok old ∧
      Correction.run .standard s old = .ok c ∧ lintText c.text s = .ok report ∧
      o = fixOutcome input write reportJson c report := by
  unfold runFix at h
  split at h
  · exact nomatch h
  · obtain ⟨s, hsettings, h⟩ := bind_eq_ok h
    obtain ⟨old, hinput, h⟩ := bind_eq_ok h
    obtain ⟨c, hcorrected, h⟩ := bind_eq_ok h
    obtain ⟨report, hreport, h⟩ := bind_eq_ok h
    exact ⟨s, old, c, report, hsettings, mapError_eq_ok hinput,
      mapError_eq_ok hcorrected, hreport, (Except.ok.inj h).symm⟩

theorem runFix_of_ok {files : Files} {input : String} {config : Option String}
    {reportJson : Bool} {s : Settings} {old : Text} {c : Correction} {report : Report}
    (hsettings : loadSettings files config = .ok s) (hinput : files input = .ok old)
    (hcorrected : Correction.run .standard s old = .ok c) (hreport : lintText c.text s = .ok report) :
    runFix files input config true reportJson = .ok (fixOutcome input true reportJson c report) := by
  have hoptions : ¬ ((reportJson && !true) = true) := by simp
  rw [runFix, if_neg hoptions, hsettings]
  show (loadInput files input >>= _) = _
  rw [loadInput, hinput]
  show ((Correction.run .standard s old).mapError Failure.uncorrected >>= _) = _
  rw [hcorrected]
  show (lintText c.text s >>= _) = _
  rw [hreport]
  rfl

theorem fixOutcome_written {input path : String} {write reportJson : Bool} {c : Correction}
    {report : Report} {t : Text}
    (h : (fixOutcome input write reportJson c report).written = some (path, t)) :
    write = true ∧ 0 < c.applied ∧ path = input ∧ t = c.text := by
  change (if write && decide (0 < c.applied) then some (input, c.text) else none) = _ at h
  split at h
  next hwrite =>
    rw [Bool.and_eq_true, decide_eq_true_iff] at hwrite
    obtain ⟨rfl, rfl⟩ := Prod.mk.inj (Option.some.inj h)
    exact ⟨hwrite.1, hwrite.2, rfl, rfl⟩
  next => exact nomatch h

/-- **What a command writes** is the corrected text of its input, behind all that can fail. -/
theorem run_written {files : Files} {command : Command} {path : String} {t : Text}
    (h : (command.run files).written = some (path, t)) :
    ∃ config reportJson s old c, command = .fix path config true reportJson ∧
      ((command.run files).exit = 0 ∨ (command.run files).exit = 1) ∧
      loadSettings files config = .ok s ∧ files path = .ok old ∧
      Correction.run .standard s old = .ok c ∧ 0 < c.applied ∧ t = c.text ∧
      ∃ d, Document.read c.text = .ok d := by
  unfold run at h ⊢
  split at h
  next o ho =>
    cases command with
    | check input config reportJson =>
      rw [runCheck_written ho] at h
      exact nomatch h
    | fix input config write reportJson =>
      obtain ⟨s, old, c, report, hsettings, hinput, hcorrected, hreport, rfl⟩ := runFix_eq_ok ho
      obtain ⟨rfl, happlied, rfl, rfl⟩ := fixOutcome_written h
      exact ⟨config, reportJson, s, old, c, rfl, exitFor_le report, hsettings, hinput, hcorrected,
        happlied, rfl, read_of_lintText hreport⟩
    | rules =>
      rw [← Except.ok.inj ho] at h
      exact nomatch h
    | help topic =>
      rw [← Except.ok.inj ho] at h
      exact nomatch h
  next =>
    rw [failed_written] at h
    exact nomatch h

/-- a correction that applied edits and can be read again is written -/
theorem written_of_corrected {files : Files} {input : String} {config : Option String}
    {reportJson : Bool} {s : Settings} {old : Text} {c : Correction} {d : Document}
    (hsettings : loadSettings files config = .ok s) (hinput : files input = .ok old)
    (hcorrected : Correction.run .standard s old = .ok c) (happlied : 0 < c.applied)
    (hread : Document.read c.text = .ok d) :
    (run files (.fix input config true reportJson)).written = some (input, c.text) := by
  obtain ⟨report, hreport⟩ := lintText_of_read hread s
  have hrun : run? files (.fix input config true reportJson)
      = .ok (fixOutcome input true reportJson c report) :=
    runFix_of_ok hsettings hinput hcorrected hreport
  rw [run, hrun]
  exact if_pos (by simpa using happlied)

end Command

namespace Directory

variable {d : Directory} {path : String}

/-! ## one place -/

theorem read_eq_ok {t : Text} (h : d.read path = .ok t) :
    ∃ names, d.locate path = .ok (.inside names) ∧ d.items.lookup names = some (.text t) := by
  obtain ⟨content, hfind, hcontent⟩ := bind_eq_ok h
  obtain ⟨place, hplace, hfind⟩ := bind_eq_ok hfind
  have htext : content = .text t := by
    cases content with
    | text t' => rw [Except.ok.inj hcontent]
    | binary => exact nomatch hcontent
    | folder => exact nomatch hcontent
  have hat : d.contentAt? place = some (.text t) := by
    split at hfind
    next c hc => rw [hc, Except.ok.inj hfind, htext]
    next => exact nomatch hfind
  cases place with
  | above => exact nomatch hat
  | inside names =>
    refine ⟨names, hplace, ?_⟩
    simp only [contentAt?] at hat
    split at hat
    next c hc => rw [hc, hat]
    next =>
      split at hat
      · exact nomatch hat
      · exact nomatch hat

theorem lookup_map_replace {α β : Type} [BEq α] [LawfulBEq α] [DecidableEq α]
    (items : List (α × β)) (k : α) (b : β) (a : α) :
    (items.map (fun item => if item.1 = k then (k, b) else item)).lookup a
      = if a = k then (items.lookup a).map (fun _ => b) else items.lookup a := by
  induction items with
  | nil => simp
  | cons item items ih =>
    obtain ⟨a', b'⟩ := item
    have hcons (a'' : α) (b'' : β) (rest : List (α × β)) :
        ((a'', b'') :: rest).lookup a = if a = a'' then some b'' else rest.lookup a := by
      by_cases h : a = a'' <;> simp [List.lookup_cons, h, beq_false_of_ne]
    rw [List.map_cons, hcons]
    by_cases hk : a' = k
    · subst hk
      rw [if_pos rfl, hcons, ih]
      by_cases ha : a = a' <;> simp [ha]
    · rw [if_neg hk, hcons, ih]
      by_cases ha : a = a'
      · simp [ha, hk]
      · simp [ha]

/-- **Writing changes one place**: what other paths lead to stays as it is. -/
theorem contentAt?_write {names : List String} {old : Content} (t : Text)
    (hplace : d.locate path = .ok (.inside names)) (hold : d.items.lookup names = some old)
    (place : FilePlace) :
    (d.write path t).contentAt? place
      = if place = .inside names then some (.text t) else d.contentAt? place := by
  have hwrite : d.write path t
      = ⟨d.items.map (fun item => if item.1 = names then (names, .text t) else item)⟩ := by
    rw [write, hplace]
  rw [hwrite]
  cases place with
  | above => rfl
  | inside others =>
    have hkeys : (d.items.map (fun item => if item.1 = names then (names, Content.text t) else item)).any
        (fun item => others.isPrefixOf item.1) = d.items.any (fun item => others.isPrefixOf item.1) := by
      rw [List.any_map]
      congr 1
      funext item
      by_cases hitem : item.1 = names <;> simp [hitem]
    simp only [contentAt?, hkeys, FilePlace.inside.injEq]
    rw [lookup_map_replace]
    by_cases hothers : others = names
    · subst hothers
      simp only [if_pos, hold, Option.map_some]
    · simp only [if_neg hothers]

/-! ## one command line -/

/-- A command line mends the file at a place: it is `fix --write` on that file, the file holds a
text that can be read, and what it holds afterwards is the corrected text, which can be read too and
differs by at least one edit. -/
def Mends (d : Directory) (arguments : List String) (place : FilePlace) : Prop :=
  ∃ input config reportJson s old c,
    Command.parse arguments = some (.fix input config true reportJson) ∧
    d.locate input = .ok place ∧
    ((Outcome.ofArguments d arguments).exit = 0 ∨ (Outcome.ofArguments d arguments).exit = 1) ∧
    d.contentAt? place = some (.text old) ∧ (∃ document, Document.read old = .ok document) ∧
    Command.loadSettings d.read config = .ok s ∧
    Correction.run .standard s old = .ok c ∧ 0 < c.applied ∧
    (d.after (.ofArguments d arguments)).contentAt? place = some (.text c.text) ∧
    ∃ document, Document.read c.text = .ok document

/-- a command line writes nothing, or it mends a file and leaves all other places as they are -/
theorem after_cases (d : Directory) (arguments : List String) :
    d.after (.ofArguments d arguments) = d ∨
      ∃ place, d.Mends arguments place ∧
        ∀ other ≠ place, (d.after (.ofArguments d arguments)).contentAt? other
          = d.contentAt? other := by
  cases hparse : Command.parse arguments with
  | none =>
    refine .inl ?_
    rw [Outcome.ofArguments, hparse]
    rfl
  | some command =>
    have houtcome : Outcome.ofArguments d arguments = command.run d.read := by
      rw [Outcome.ofArguments, hparse]
    cases hwritten : (command.run d.read).written with
    | none =>
      refine .inl ?_
      rw [after, houtcome, hwritten]
    | some pair =>
      obtain ⟨path, t⟩ := pair
      obtain ⟨config, reportJson, s, old, c, rfl, hexit, hsettings, hinput, hcorrected, happlied,
        rfl, hread⟩ := Command.run_written hwritten
      obtain ⟨names, hplace, hold⟩ := read_eq_ok hinput
      have hafter : d.after (.ofArguments d arguments) = d.write path c.text := by
        rw [after, houtcome, hwritten]
      refine .inr ⟨.inside names, ?_, fun other hother => ?_⟩
      · refine ⟨path, config, reportJson, s, old, c, hparse, hplace, houtcome ▸ hexit, ?_,
          Correction.read_of_run hcorrected, hsettings, hcorrected, happlied, ?_, hread⟩
        · simp only [contentAt?, hold]
        · rw [hafter, contentAt?_write c.text hplace hold, if_pos rfl]
      · rw [hafter, contentAt?_write c.text hplace hold, if_neg hother]

theorem mends_of_ne {d : Directory} {arguments : List String} {place : FilePlace}
    (h : (d.after (.ofArguments d arguments)).contentAt? place ≠ d.contentAt? place) :
    d.Mends arguments place ∧ ∀ other ≠ place,
      (d.after (.ofArguments d arguments)).contentAt? other = d.contentAt? other := by
  rcases after_cases d arguments with hsame | ⟨mended, hmends, hothers⟩
  · rw [hsame] at h
    exact absurd rfl h
  · by_cases heq : place = mended
    · subst heq
      exact ⟨hmends, hothers⟩
    · exact absurd (hothers place heq) h

theorem after_eq_self {d : Directory} {arguments : List String}
    (h : ∀ place, ¬ d.Mends arguments place) : d.after (.ofArguments d arguments) = d := by
  rcases after_cases d arguments with hsame | ⟨place, hmends, -⟩
  · exact hsame
  · exact absurd hmends (h place)

/-! ## many command lines -/

def afterAll (d : Directory) (lines : List (List String)) : Directory :=
  lines.foldl (fun now arguments => now.after (.ofArguments now arguments)) d

/-- what has changed over some command lines was mended by one of them -/
theorem afterAll_mends {place : FilePlace} (lines : List (List String)) :
    ∀ d : Directory, (d.afterAll lines).contentAt? place ≠ d.contentAt? place →
      ∃ before arguments behind, lines = before ++ arguments :: behind ∧
        (d.afterAll before).Mends arguments place := by
  induction lines with
  | nil =>
    intro d h
    exact absurd rfl h
  | cons arguments lines ih =>
    intro d h
    by_cases hfirst : (d.after (.ofArguments d arguments)).contentAt? place = d.contentAt? place
    · have hrest : ((d.after (.ofArguments d arguments)).afterAll lines).contentAt? place
          ≠ (d.after (.ofArguments d arguments)).contentAt? place := by
        rw [hfirst]
        exact h
      obtain ⟨before, later, behind, rfl, hmends⟩ := ih _ hrest
      exact ⟨arguments :: before, later, behind, rfl, hmends⟩
    · exact ⟨[], arguments, lines, rfl, (mends_of_ne hfirst).1⟩

theorem afterAll_append_one (d : Directory) (lines : List (List String)) (arguments : List String) :
    d.afterAll (lines ++ [arguments])
      = (d.afterAll lines).after (.ofArguments (d.afterAll lines) arguments) := by
  rw [afterAll, List.foldl_append]
  rfl

/-- a correction that applied edits and can be read again stands in the file afterwards -/
theorem contentAt?_of_corrected {d : Directory} {arguments : List String} {input : String}
    {config : Option String} {reportJson : Bool} {s : Settings} {old : Text} {c : Correction}
    {document : Document}
    (hparse : Command.parse arguments = some (.fix input config true reportJson))
    (hsettings : Command.loadSettings d.read config = .ok s) (hinput : d.read input = .ok old)
    (hcorrected : Correction.run .standard s old = .ok c) (happlied : 0 < c.applied)
    (hread : Document.read c.text = .ok document) :
    ∃ place, d.locate input = .ok place ∧
      (d.after (.ofArguments d arguments)).contentAt? place = some (.text c.text) := by
  obtain ⟨names, hplace, hold⟩ := read_eq_ok hinput
  have hafter : d.after (.ofArguments d arguments) = d.write input c.text := by
    rw [after, Outcome.ofArguments, hparse]
    simp only [Command.written_of_corrected hsettings hinput hcorrected happlied hread]
  refine ⟨.inside names, hplace, ?_⟩
  rw [hafter, contentAt?_write c.text hplace hold, if_pos rfl]

/-- **Only `fix --write` changes a file, and only into its corrected text.**  After any command
lines, one more changes the content at a place only by mending the file there, and then nothing
else; with exit code 2, or when it is no `fix --write`, it changes nothing.  What all of them
changed was mended by one of them, and what can be mended is. -/
theorem afterAll_frame (d : Directory) (lines : List (List String)) (arguments : List String) :
    let now := d.afterAll lines
    let next := d.afterAll (lines ++ [arguments])
    (∀ place, next.contentAt? place ≠ now.contentAt? place → now.Mends arguments place ∧
      ∀ other ≠ place, next.contentAt? other = now.contentAt? other) ∧
    ((Outcome.ofArguments now arguments).exit = 2 ∨ (¬ ∃ input config reportJson,
      Command.parse arguments = some (.fix input config true reportJson)) → next = now) ∧
    (∀ place, now.contentAt? place ≠ d.contentAt? place →
      ∃ before earlier behind, lines = before ++ earlier :: behind ∧
        (d.afterAll before).Mends earlier place) ∧
    ∀ input config reportJson s old c document,
      Command.parse arguments = some (.fix input config true reportJson) →
      Command.loadSettings now.read config = .ok s → now.read input = .ok old →
      Correction.run .standard s old = .ok c → 0 < c.applied →
      Document.read c.text = .ok document →
      ∃ place, now.locate input = .ok place ∧ next.contentAt? place = some (.text c.text) := by
  intro now next
  have hnext : next = now.after (.ofArguments now arguments) := afterAll_append_one d lines arguments
  rw [hnext]
  refine ⟨fun place hne => ?_, fun h => ?_, fun place hne => ?_, ?_⟩
  · exact mends_of_ne hne
  · refine after_eq_self ?_
    rintro place ⟨input, config, reportJson, s, old, c, hparse, -, hexit, -⟩
    rcases h with htwo | hno
    · omega
    · exact hno ⟨input, config, reportJson, hparse⟩
  · exact afterAll_mends lines d hne
  · intro input config reportJson s old c document hparse hsettings hinput hcorrected happlied hread
    exact contentAt?_of_corrected hparse hsettings hinput hcorrected happlied hread

/-- a file is printed corrected, and then mended under another spelling of its path; the file
beside it stays -/
theorem afterAll_frame_two_files :
    let d : Directory := ⟨[(["sub", "a"], .text "x = {b: 1, a: 2}".toList),
      (["b"], .text "y = {b: 1, a: 2}".toList)]⟩
    let now := d.afterAll [["fix", "--input", "sub/a"]]
    let next := d.afterAll [["fix", "--input", "sub/a"], ["fix", "--write", "--input=sub/../sub/a"]]
    now = d ∧
    now.Mends ["fix", "--write", "--input=sub/../sub/a"] (.inside ["sub", "a"]) ∧
    next.contentAt? (.inside ["sub", "a"]) = some (.text "x = {a: 2, b: 1}".toList) ∧
    next.contentAt? (.inside ["b"]) = now.contentAt? (.inside ["b"]) := by
  intro d now next
  have hmended : next.contentAt? (.inside ["sub", "a"]) = some (.text "x = {a: 2, b: 1}".toList) := by
    decide +kernel
  have hnow : now = d := by
    refine (afterAll_frame d [] ["fix", "--input", "sub/a"]).2.1 (.inr ?_)
    rintro ⟨input, config, reportJson, hparse⟩
    have hprint : Command.parse ["fix", "--input", "sub/a"]
        = some (.fix "sub/a" none false false) := by
      decide +kernel
    rw [hprint] at hparse
    exact nomatch hparse
  have hframe := (afterAll_frame d [["fix", "--input", "sub/a"]]
    ["fix", "--write", "--input=sub/../sub/a"]).1 (.inside ["sub", "a"]) (by
      show next.contentAt? _ ≠ now.contentAt? _
      rw [hmended, hnow]
      decide +kernel)
  exact ⟨hnow, hframe.1, hmended, hframe.2 _ (by decide)⟩

end Directory
end Collate
