import Collate.Proofs.Command.Files
import Collate.Proofs.Json.Rendered
import Collate.Proofs.Lint
import Collate.Proofs.Rule.Shorthand
import Collate.Proofs.Token.Ends

/-!
# What is printed

Findings are printed one to a line, or as the data of a report.

* `Diagnostic.OneLine`        a finding without line feeds in its code and message;
* `Command.lintText_oneLine`  what is found in a text is such;
* `offenseLines_lineFeeds`    as many lines as findings;
* `toolReport_read`           what is read back from a printed report.
-/

namespace Collate

/-! ## lines -/

/-- neither the code nor the message breaks the line -/
structure Diagnostic.OneLine (x : Diagnostic) : Prop where
  code : '\n' ∉ x.code.toList
  message : '\n' ∉ x.message.toList

theorem lineFeed_notMem_digits (n : Nat) : '\n' ∉ Nat.toDigits 10 n :=
  fun h => absurd (Json.isDigit_digits n _ h) (by decide)

/-- the line of a finding ends with its only line feed, but for those of the path -/
theorem offenseLine_lineFeeds (input : String) {x : Diagnostic} (h : x.OneLine) :
    (offenseLine input x).toList.count '\n' = input.toList.count '\n' + 1 := by
  have hplace (line column : Nat) : (input ++ (":" ++ line.repr ++ ":" ++ column.repr ++ ": ") ++ x.code
      ++ ": " ++ x.message ++ "\n").toList.count '\n' = input.toList.count '\n' + 1 := by
    have hline := List.count_eq_zero_of_not_mem (lineFeed_notMem_digits line)
    have hcolumn := List.count_eq_zero_of_not_mem (lineFeed_notMem_digits column)
    have hcode := List.count_eq_zero_of_not_mem h.code
    have hmessage := List.count_eq_zero_of_not_mem h.message
    simp [hline, hcolumn, hcode, hmessage]
  exact hplace ..

/-- as many lines as findings; line feeds in the path stand on each of them -/
theorem offenseLines_lineFeeds (input : String) {diagnostics : List Diagnostic}
    (h : ∀ x ∈ diagnostics, x.OneLine) : (offenseLines input diagnostics).toList.count '\n'
      = diagnostics.length * (input.toList.count '\n' + 1) := by
  induction diagnostics with
  | nil => exact (Nat.zero_mul _).symm
  | cons x diagnostics ih =>
    obtain ⟨hx, hrest⟩ := List.forall_mem_cons.mp h
    have hcons : offenseLines input (x :: diagnostics)
        = offenseLine input x ++ offenseLines input diagnostics := String.join_cons
    rw [hcons, String.toList_append, List.count_append, offenseLine_lineFeeds input hx, ih hrest,
      List.length_cons, Nat.succ_mul, Nat.add_comm]

namespace Rule
variable {d : Document} {s : Settings} {id : Nat} {o : Offense}

theorem lineFeed_notMem_name (rule : Rule) : '\n' ∉ rule.name.toList := by
  cases rule <;> decide

theorem lineFeed_notMem_append {a b : String} (ha : '\n' ∉ a.toList) (hb : '\n' ∉ b.toList) :
    '\n' ∉ (a ++ b).toList := by
  rw [String.toList_append, List.mem_append]
  exact not_or.mpr ⟨ha, hb⟩

theorem lineFeed_notMem_shorthandMessage {key : String} (h : '\n' ∉ key.toList) :
    '\n' ∉ (shorthandMessage key).toList := by
  have hwords : ∀ word ∈ ["Use Ruby 3 keyword shorthand `", ":` instead of `", ": ", "`."],
      '\n' ∉ word.toList := by
    decide +kernel
  simp only [List.forall_mem_cons] at hwords
  obtain ⟨hfirst, hsecond, hthird, hlast, -⟩ := hwords
  have hnamed := lineFeed_notMem_append (lineFeed_notMem_append hfirst h) hsecond
  have htwice := lineFeed_notMem_append (lineFeed_notMem_append hnamed h) hthird
  exact lineFeed_notMem_append (lineFeed_notMem_append htwice h) hlast

/-- A rule says what it finds in one line: the key that the shorthand rule names is the name of a
variable too. -/
theorem lineFeed_notMem_message {rule : Rule} (hd : d.Placed) (hfound : rule.find s d id = some o) :
    '\n' ∉ o.message.toList := by
  rcases find_cases hfound with ⟨q, anchor, policy, -, ho⟩ | ⟨rfl, name, hname, -, rfl⟩
  · rw [Offense.ofOrder_message ho]
    cases rule <;> decide +kernel
  · obtain ⟨key, value, hrepeats⟩ := Document.redundantKey_value hname
    obtain ⟨front, label, next, rest, htokens, -, -, hkind, -⟩ := hrepeats.exists_tokens hd
    have hloud := Text.ident_loud (show next ∈ d.text.tokens by simp [htokens]) hkind
    refine lineFeed_notMem_shorthandMessage fun hmem => ?_
    rw [String.toList_ofList] at hmem
    exact absurd (hloud _ hmem) (by decide)

end Rule

theorem Document.lint_oneLine {d : Document} {s : Settings} {report : Report} (hd : d.Placed)
    (h : d.lint s true = .ok report) : ∀ x ∈ report.diagnostics, x.OneLine := by
  intro x hx
  obtain ⟨offenses, hlinted⟩ := linted_of_ok h
  obtain ⟨r, -, -, ho, hreports⟩ := hlinted.ruled_reports hx
  obtain ⟨id, -, rule, -, hfound⟩ := (mem_offenses hlinted.offenses_eq).mp ho
  exact ⟨hreports.code ▸ r.offense.rule.lineFeed_notMem_name,
    hreports.message ▸ Rule.lineFeed_notMem_message hd hfound⟩

theorem Command.lintText_eq_ok {t : Text} {s : Settings} {report : Report}
    (h : lintText t s = .ok report) :
    ∃ d : Document, d.text = t ∧ d.Placed ∧ d.lint s true = .ok report := by
  unfold lintText at h
  split at h
  next => exact nomatch h
  next d hreader =>
    obtain ⟨htext, hd⟩ := Document.placed_of_read (DocumentReader.standard_eq_ok hreader)
    exact ⟨d, htext, hd, mapError_eq_ok h⟩

theorem Command.lintText_oneLine {t : Text} {s : Settings} {report : Report}
    (h : lintText t s = .ok report) : ∀ x ∈ report.diagnostics, x.OneLine := by
  obtain ⟨d, -, hd, hlint⟩ := lintText_eq_ok h
  exact Document.lint_oneLine hd hlint

/-! ## reports -/

/-- the numbers of the position have at most 64 bits -/
def Position.Sized (p : Position) : Prop :=
  p.line ≤ Json.largestWord ∧ p.column ≤ Json.largestWord ∧ ∀ offset ∈ p.offset, offset ≤ Json.largestWord

/-- the numbers of the finding have at most 64 bits -/
structure Diagnostic.Sized (x : Diagnostic) : Prop where
  located : ∀ l ∈ x.location, l.start.Sized ∧ l.stop.Sized
  mended : ∀ e ∈ x.fix, e.span.start ≤ Json.largestWord ∧ e.span.stop ≤ Json.largestWord

theorem Text.position_sized {t : Text} {offset : Nat} (h : offset ≤ Json.largestWord) :
    (t.position offset).Sized := by
  have hlimit : positionLimit ≤ Json.largestWord := by decide
  have hline : t.lineOf offset % positionLimit < positionLimit := Nat.mod_lt _ (by decide)
  have hcolumn : (t.columnOf offset + 1) % positionLimit < positionLimit := Nat.mod_lt _ (by decide)
  exact ⟨Nat.le_trans (Nat.le_of_lt hline) hlimit, Nat.le_trans (Nat.le_of_lt hcolumn) hlimit,
    fun _ hoffset => Option.some.inj hoffset ▸ h⟩

/-- what is found in a text of at most so many bytes has such numbers -/
theorem Document.lint_sized {d : Document} {s : Settings} {report : Report} (hd : d.Placed)
    (hsize : d.text.size ≤ Json.largestWord) (h : d.lint s true = .ok report) :
    ∀ x ∈ report.diagnostics, x.Sized := by
  intro x hx
  obtain ⟨offenses, hlinted⟩ := linted_of_ok h
  obtain ⟨r, -, -, ho, hreports⟩ := hlinted.ruled_reports hx
  obtain ⟨id, -, rule, -, hfound⟩ := (mem_offenses hlinted.offenses_eq).mp ho
  have hfits := (Rule.check_safe hd rule s id).of_value hfound
  obtain ⟨text, hanchor⟩ := hfits.anchored
  obtain ⟨front, rest, htext, hfront, hstop⟩ := Text.slice?_eq_some.mp hanchor
  have hwhole : d.text.size = Text.size front + Text.size text + Text.size rest := by
    rw [htext, Text.size_append, Text.size_append]
  constructor
  · intro l hl
    rw [hreports.location] at hl
    rw [← Option.some.inj hl]
    exact ⟨Text.position_sized (by omega), Text.position_sized (by omega)⟩
  · intro e he
    have hedit : r.offense.edit = some e := by
      rcases hreports.fix with hfix | ⟨hnone, -⟩
      · exact hfix.symm.trans he
      · exact nomatch hnone.symm.trans he
    have hle := (hfits.edit_fits e hedit).stop_le
    have hpos := (hfits.edit_fits e hedit).nonempty
    omega

theorem Command.lintText_sized {t : Text} {s : Settings} {report : Report}
    (hsize : t.size ≤ Json.largestWord) (h : lintText t s = .ok report) :
    ∀ x ∈ report.diagnostics, x.Sized := by
  obtain ⟨d, rfl, hd, hlint⟩ := lintText_eq_ok h
  exact Document.lint_sized hd hsize hlint

section
variable {depth : Nat}

theorem Json.fits_ofNat {n : Nat} (h : n ≤ largestWord) : (ofNat n).Fits depth := by
  cases depth <;> exact ⟨Int.natCast_nonneg n, Int.ofNat_le.mpr h⟩

theorem Json.fits_str (s : String) : (str s).Fits depth := by
  cases depth <;> exact trivial

theorem Json.fits_bool (value : Bool) : (bool value).Fits depth := by
  cases depth <;> exact trivial

theorem optionalField_fits {name : String} {value : Option Json} (h : ∀ held ∈ value, held.Fits depth) :
    ∀ field ∈ optionalField name value, field.2.Fits depth := by
  cases value with
  | none => exact fun _ hfield => nomatch hfield
  | some held => exact List.forall_mem_singleton.mpr (h held rfl)

theorem optionalField_map_fits {α : Type} {name : String} {value : Option α} {f : α → Json}
    (h : ∀ a ∈ value, (f a).Fits depth) :
    ∀ field ∈ optionalField name (value.map f), field.2.Fits depth := by
  refine optionalField_fits fun held hheld => ?_
  obtain ⟨a, ha, rfl⟩ := Option.map_eq_some_iff.mp hheld
  exact h a ha

theorem Position.toJson_fits {p : Position} (h : p.Sized) : p.toJson.Fits (depth + 1) := by
  obtain ⟨hline, hcolumn, hoffset⟩ := h
  refine List.forall_mem_append.mpr ⟨?_,
    optionalField_map_fits fun offset hmem => Json.fits_ofNat (hoffset offset hmem)⟩
  exact List.forall_mem_cons.mpr ⟨Json.fits_ofNat hline,
    List.forall_mem_singleton.mpr (Json.fits_ofNat hcolumn)⟩

theorem Location.toJson_fits {l : Location} (hstart : l.start.Sized) (hstop : l.stop.Sized) :
    l.toJson.Fits (depth + 3) := by
  have hspan : ∀ field ∈ [("start", l.start.toJson), ("end", l.stop.toJson)]
      ++ optionalField "file" (l.file.map Json.str), field.2.Fits (depth + 1) := by
    refine List.forall_mem_append.mpr ⟨?_, optionalField_map_fits fun _ _ => Json.fits_str _⟩
    exact List.forall_mem_cons.mpr ⟨Position.toJson_fits hstart,
      List.forall_mem_singleton.mpr (Position.toJson_fits hstop)⟩
  refine List.forall_mem_append.mpr ⟨?_, optionalField_map_fits fun _ _ => Json.fits_str _⟩
  exact List.forall_mem_cons.mpr ⟨Json.fits_str _, List.forall_mem_singleton.mpr hspan⟩

theorem Edit.toJson_fits {e : Edit} (hstart : e.span.start ≤ Json.largestWord)
    (hstop : e.span.stop ≤ Json.largestWord) : e.toJson.Fits (depth + 1) :=
  List.forall_mem_cons.mpr ⟨Json.fits_ofNat hstart, List.forall_mem_cons.mpr ⟨Json.fits_ofNat hstop,
    List.forall_mem_singleton.mpr (Json.fits_str _)⟩⟩

theorem Diagnostic.toJson_fits {x : Diagnostic} (h : x.Sized) : x.toJson.Fits (depth + 4) := by
  have hwords : ∀ field ∈ [("code", Json.str x.code), ("severity", .str x.severity.word),
      ("stage", .str x.stage.word), ("message", .str x.message)], field.2.Fits (depth + 3) := by
    simp only [List.forall_mem_cons, Json.fits_str, true_and]
    exact fun _ hfield => nomatch hfield
  have hnotes : ∀ held ∈ (if x.notes.isEmpty then none else some (Json.ofStrings x.notes)),
      held.Fits (depth + 3) := by
    intro held hheld
    split at hheld
    next => exact nomatch hheld
    next =>
      rw [← Option.some.inj hheld]
      exact List.forall_mem_map.mpr fun note _ => Json.fits_str note
  have hfix : ∀ e ∈ x.fix,
      (Json.obj [("kind", .str "text_edit"), ("edits", .arr [e.toJson])]).Fits (depth + 3) := by
    intro e he
    obtain ⟨hstart, hstop⟩ := h.mended e he
    exact List.forall_mem_cons.mpr ⟨Json.fits_str _, List.forall_mem_singleton.mpr
      (List.forall_mem_singleton.mpr (Edit.toJson_fits hstart hstop))⟩
  show ∀ field ∈ (_ ++ _ ++ _ ++ _ ++ _ : List (String × Json)), field.2.Fits (depth + 3)
  simp only [List.forall_mem_append]
  refine ⟨⟨⟨⟨hwords, ?_⟩, optionalField_fits hnotes⟩, ?_⟩, optionalField_map_fits hfix⟩
  · exact optionalField_map_fits fun l hl =>
      Location.toJson_fits (h.located l hl).1 (h.located l hl).2
  · exact optionalField_map_fits fun _ _ => List.forall_mem_singleton.mpr (Json.fits_str _)

end

/-- the numbers of the report of a command have at most 64 bits -/
structure ReportSized (diagnostics : List Diagnostic) (counts : Option CorrectionCounts) : Prop where
  count : diagnostics.length ≤ Json.largestWord
  findings : ∀ x ∈ diagnostics, x.Sized
  passes : ∀ c ∈ counts, c.passes ≤ Json.largestWord
  applied : ∀ c ∈ counts, c.applied ≤ Json.largestWord

variable (command input : String) {diagnostics : List Diagnostic} {counts : Option CorrectionCounts}
  {exit : Nat}

theorem toolReportData_fits (h : ReportSized diagnostics counts) (hexit : exit ≤ Json.largestWord) :
    (toolReportData command input diagnostics counts exit).Fits Json.depthLimit := by
  have hhead : ∀ field ∈ [("schema_version", Json.str toolReportVersion), ("command", .str command),
      ("ok", .bool (exit == 0)), ("in", .str input), ("diagnostics_count", .ofNat diagnostics.length)],
      field.2.Fits 126 := by
    simp only [List.forall_mem_cons, Json.fits_str, Json.fits_bool, Json.fits_ofNat h.count, true_and]
    exact fun _ hfield => nomatch hfield
  have hfindings : ∀ held ∈ (if diagnostics.isEmpty then none
      else some (Json.arr (diagnostics.map Diagnostic.toJson))), held.Fits 126 := by
    intro held hheld
    split at hheld
    next => exact nomatch hheld
    next =>
      rw [← Option.some.inj hheld]
      exact List.forall_mem_map.mpr fun x hx => Diagnostic.toJson_fits (h.findings x hx)
  show ∀ field ∈ (_ ++ _ ++ _ ++ _ ++ _ : List (String × Json)), field.2.Fits 126
  simp only [List.forall_mem_append]
  refine ⟨⟨⟨⟨hhead, optionalField_fits hfindings⟩, ?_⟩, ?_⟩, ?_⟩
  · exact optionalField_map_fits fun c hc => Json.fits_ofNat (h.passes c hc)
  · exact optionalField_map_fits fun c hc => Json.fits_ofNat (h.applied c hc)
  · exact List.forall_mem_singleton.mpr (Json.fits_ofNat hexit)

/-- a report that tells an exit code and a number of findings -/
structure Json.Tells (report : Json) (exit count : Nat) : Prop where
  exit_code : report.field? "exit_code" = some (.ofNat exit)
  ok : report.field? "ok" = some (.bool (decide (exit = 0)))
  diagnostics_count : report.field? "diagnostics_count" = some (.ofNat count)

theorem toolReportData_tells :
    (toolReportData command input diagnostics counts exit).Tells exit diagnostics.length := by
  refine ⟨?_, rfl, rfl⟩
  show List.lookup "exit_code" (_ ++ _) = _
  cases diagnostics.isEmpty <;> cases counts <;> rfl

theorem toolReport_read (h : ReportSized diagnostics counts) (hexit : exit ≤ Json.largestWord) :
    ∃ found, Json.read (toolReport command input diagnostics counts exit).toList = some found ∧
      found.Tells exit diagnostics.length := by
  have hread := Json.read_render (toolReportData_fits command input h hexit) ['\n'] (by simp)
  refine ⟨_, by rw [toolReport, String.toList_append]; exact hread, ?_⟩
  simp only [toolReportData, Json.arranged, Json.arrangedFields_eq]
  constructor
  all_goals
    rw [Json.field?_ofFields]
    cases diagnostics.isEmpty <;> cases counts <;> rfl

end Collate
