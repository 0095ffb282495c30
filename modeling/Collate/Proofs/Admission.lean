import Collate.Proofs.Rule.Independence

/-!
# The edits of a report

Offenses are ruled on in the order of the visits.  The run over them holds the spans of the edits
that it has admitted, and admits the next edit iff it overlaps none of these.  So the edits of a
report do not overlap, and none that would have fitted beside the ones before it is missing.

* `Ruling.on`              the ruling on one offense, given what is held;
* `Ruling.at_ofOffenses`   the rulings of a whole run;
* `Document.Findings`      findings in the order of the offenses, and which of them have an edit;
* `Document.lint_findings` a report has these findings, sorted;
* `Document.lint_admits`   what it says of offenses, edits and order, for any document.
-/

namespace Collate

variable {d : Document} {t : Text}

/-! ## one offense after the other -/

namespace Ruling
variable {held : List Span} {o : Offense} {e : Edit}

def on (held : List Span) (o : Offense) : Ruling :=
  match o.edit with
  | none => plain o
  | some edit =>
    if held.any (fun span => span.overlaps edit.span) then ⟨o, none, true⟩ else ⟨o, some edit, false⟩

theorem on_offense (held : List Span) (o : Offense) : (on held o).offense = o := by
  unfold on
  split
  · rfl
  · split <;> rfl

theorem on_fix : (on held o).fix = some e
    ↔ o.edit = some e ∧ ∀ span ∈ held, span.overlaps e.span = false := by
  unfold on
  cases hedit : o.edit with
  | none => simp [plain]
  | some edit =>
    dsimp only
    split
    next hany =>
      obtain ⟨span, hspan, hover⟩ := List.any_eq_true.mp hany
      constructor
      · intro h
        exact absurd h.symm (Option.some_ne_none e)
      · intro h
        rw [Option.some.inj h.1, h.2 span hspan] at hover
        exact Bool.noConfusion hover
    next hnone =>
      simp only [List.any_eq_true, not_exists, not_and, Bool.not_eq_true] at hnone
      refine ⟨fun h => ⟨h, ?_⟩, fun h => h.1⟩
      rw [← Option.some.inj h]
      exact hnone

theorem on_deferred : (on held o).deferred = true
    ↔ o.edit.isSome = true ∧ (on held o).fix = none := by
  unfold on
  cases o.edit with
  | none => simp [plain]
  | some edit =>
    dsimp only
    split <;> simp

theorem ofOffenses_cons (held : List Span) (o : Offense) (rest : List Offense) :
    ofOffenses held (o :: rest)
      = on held o :: ofOffenses (held ++ (on held o).fix.toList.map (·.span)) rest := by
  rw [ofOffenses, on]
  cases o.edit with
  | none => rw [plain, Option.toList_none, List.map_nil, List.append_nil]
  | some edit =>
    dsimp only
    split
    · rw [Option.toList_none, List.map_nil, List.append_nil]
    · rfl

/-- In a run an edit is admitted iff it overlaps nothing that is held and no edit admitted before
it, and otherwise it is deferred. -/
theorem at_ofOffenses {offenses : List Offense} : ∀ {held : List Span} {i : Nat} {o : Offense}
    {r : Ruling}, offenses[i]? = some o → (ofOffenses held offenses)[i]? = some r →
    r.offense = o ∧ (r.deferred = true ↔ o.edit.isSome = true ∧ r.fix = none) ∧
    ∀ e, r.fix = some e ↔ o.edit = some e ∧ (∀ span ∈ held, span.overlaps e.span = false) ∧
      ∀ j r' e', j < i → (ofOffenses held offenses)[j]? = some r' → r'.fix = some e' →
        e'.span.overlaps e.span = false := by
  induction offenses with
  | nil =>
    intro held i o r ho
    exact nomatch ho
  | cons first rest ih =>
    intro held i o r ho hr
    rw [ofOffenses_cons] at hr ⊢
    cases i with
    | zero =>
      obtain rfl := Option.some.inj ho
      obtain rfl := Option.some.inj hr
      refine ⟨on_offense held first, on_deferred, fun e => on_fix.trans ?_⟩
      exact ⟨fun h => ⟨h.1, h.2, fun j _ _ hj => absurd hj (Nat.not_lt_zero j)⟩, fun h => ⟨h.1, h.2.1⟩⟩
    | succ i =>
      obtain ⟨hoffense, hdeferred, hfix⟩ := ih ho hr
      refine ⟨hoffense, hdeferred, fun e => (hfix e).trans (and_congr_right fun _ => ?_)⟩
      -- what is held behind the first offense is what was held and the edit admitted there
      constructor
      · intro ⟨hheld, hearlier⟩
        refine ⟨fun span hspan => hheld span (List.mem_append_left _ hspan), ?_⟩
        intro j r' e' hj hr' hfix'
        cases j with
        | zero =>
          obtain rfl := Option.some.inj hr'
          refine hheld e'.span (List.mem_append_right _ ?_)
          rw [hfix']
          exact List.mem_singleton.mpr rfl
        | succ j => exact hearlier j r' e' (Nat.lt_of_succ_lt_succ hj) hr' hfix'
      · intro ⟨hheld, hearlier⟩
        refine ⟨fun span hspan => ?_, fun j r' e' hj hr' =>
          hearlier (j + 1) r' e' (Nat.succ_lt_succ hj) hr'⟩
        rcases List.mem_append.mp hspan with hspan | hspan
        · exact hheld span hspan
        · obtain ⟨e', he', rfl⟩ := List.mem_map.mp hspan
          exact hearlier 0 _ e' (Nat.succ_pos i) rfl (Option.mem_toList.mp he')

end Ruling

/-! ## the findings in the order of the offenses -/

/-- The findings on some offenses, in their order.  Every one reports its offense; it has the edit
of that offense iff the edit overlaps no edit of a finding before it, and if it does overlap one,
the note says that it is deferred. -/
structure Document.Findings (d : Document) (offenses : List Offense) (found : List Diagnostic) :
    Prop where
  length_eq : found.length = offenses.length
  reports : ∀ (i : Nat) (o : Offense) (x : Diagnostic), offenses[i]? = some o → found[i]? = some x →
    x.code = o.rule.name ∧ x.message = o.message ∧ x.severity = .warning ∧ x.stage = .lint ∧
      x.location = some (.of d.text o.anchor) ∧ x.offset = o.anchor.start ∧
      x.anchor = d.text.slice? o.anchor
  fix_iff : ∀ (i : Nat) (o : Offense) (x : Diagnostic), offenses[i]? = some o → found[i]? = some x →
    ∀ e : Edit, x.fix = some e ↔
      o.edit = some e ∧ ∀ (j : Nat) (y : Diagnostic) (e' : Edit), j < i → found[j]? = some y →
        y.fix = some e' → e'.span.overlaps e.span = false
  notes : ∀ (i : Nat) (o : Offense) (x : Diagnostic), offenses[i]? = some o → found[i]? = some x →
    x.notes = o.note.toList ++
      (if o.edit.isSome = true ∧ x.fix = none then [Ruling.deferredNote] else [])

theorem mapM_ok_getElem? {ε α β : Type} {f : α → Except ε β} {as : List α} :
    ∀ {bs : List β}, as.mapM f = .ok bs → bs.length = as.length ∧
      ∀ (i : Nat) (b : β), bs[i]? = some b → ∃ a, as[i]? = some a ∧ f a = .ok b := by
  induction as with
  | nil =>
    intro bs h
    rw [← Except.ok.inj h]
    exact ⟨rfl, fun i b hb => nomatch hb⟩
  | cons a as ih =>
    intro bs h
    rw [List.mapM_cons] at h
    obtain ⟨b, hb, h⟩ := bind_eq_ok h
    obtain ⟨bs', hbs', h⟩ := bind_eq_ok h
    obtain ⟨hlength, hat⟩ := ih hbs'
    rw [← Except.ok.inj h]
    refine ⟨congrArg (· + 1) hlength, fun i x hx => ?_⟩
    cases i with
    | zero => exact ⟨a, rfl, Option.some.inj hx ▸ hb⟩
    | succ i => exact hat i x hx

namespace Document
variable {s : Settings} {offenses : List Offense} {found : List Diagnostic}

theorem findings_of_rulings
    (h : (Ruling.ofOffenses [] offenses).mapM (Ruling.diagnostic d.text) = .ok found) :
    d.Findings offenses found := by
  obtain ⟨hlength, hat⟩ := mapM_ok_getElem? h
  have hrulings : (Ruling.ofOffenses [] offenses).length = offenses.length := by
    rw [← List.length_map (·.offense), Ruling.map_offense]
  -- a finding of the run, its ruling and its offense
  have hruled {i : Nat} {o : Offense} {x : Diagnostic} (ho : offenses[i]? = some o)
      (hx : found[i]? = some x) : ∃ r, (Ruling.ofOffenses [] offenses)[i]? = some r ∧
        r.diagnostic d.text = .ok x ∧ r.offense = o ∧ x.fix = r.fix := by
    obtain ⟨r, hr, hdiagnostic⟩ := hat i x hx
    exact ⟨r, hr, hdiagnostic, (Ruling.at_ofOffenses ho hr).1, Ruling.diagnostic_fix hdiagnostic⟩
  refine ⟨hlength.trans hrulings, ?_, ?_, ?_⟩
  · intro i o x ho hx
    obtain ⟨r, -, hdiagnostic, rfl, -⟩ := hruled ho hx
    obtain ⟨hcode, hmessage, hlocation, hanchor, -⟩ := Ruling.diagnostic_eq hdiagnostic
    obtain ⟨anchor, -, hdiagnostic⟩ := bind_eq_ok (x := d.text.slice r.offense.anchor) hdiagnostic
    refine ⟨hcode, hmessage, ?_, ?_, hlocation, ?_, hanchor⟩
    · rw [← Except.ok.inj hdiagnostic]
    · rw [← Except.ok.inj hdiagnostic]
    · rw [Diagnostic.offset, hlocation]
      rfl
  · intro i o x ho hx e
    obtain ⟨r, hr, -, -, hfix⟩ := hruled ho hx
    rw [hfix, (Ruling.at_ofOffenses ho hr).2.2 e]
    refine and_congr_right fun _ => ⟨fun ⟨_, hearlier⟩ j y e' hj hy hfix' => ?_,
      fun hearlier => ⟨fun span hspan => (nomatch hspan), fun j r' e' hj hr' hfix' => ?_⟩⟩
    · obtain ⟨r', hr', hdiagnostic⟩ := hat j y hy
      rw [Ruling.diagnostic_fix hdiagnostic] at hfix'
      exact hearlier j r' e' hj hr' hfix'
    · obtain ⟨hj', -⟩ := List.getElem?_eq_some_iff.mp hr'
      obtain ⟨y, hy⟩ : ∃ y, found[j]? = some y :=
        ⟨_, List.getElem?_eq_getElem (Nat.lt_of_lt_of_eq hj' hlength.symm)⟩
      obtain ⟨r'', hr'', hdiagnostic⟩ := hat j y hy
      obtain rfl := Option.some.inj (hr'.symm.trans hr'')
      exact hearlier j y e' hj hy ((Ruling.diagnostic_fix hdiagnostic).trans hfix')
  · intro i o x ho hx
    obtain ⟨r, hr, hdiagnostic, rfl, hfix⟩ := hruled ho hx
    obtain ⟨-, hdeferred, -⟩ := Ruling.at_ofOffenses ho hr
    rw [(Ruling.diagnostic_eq hdiagnostic).2.2.2.2.2, hfix]
    simp only [hdeferred]

namespace Findings

theorem apart (h : d.Findings offenses found) : Edit.Apart (found.filterMap (·.fix)) := by
  refine List.pairwise_filterMap.mpr (List.pairwise_iff_getElem.mpr ?_)
  intro i j hi hj hij e he e' he'
  have ho : offenses[j]? = some _ := List.getElem?_eq_getElem (h.length_eq ▸ hj)
  have hx := List.getElem?_eq_getElem hj
  exact ((h.fix_iff j _ _ ho hx e').mp he').2 i _ e hij (List.getElem?_eq_getElem hi) he

/-- an offense with an edit has a finding with an edit at its place or before it -/
theorem exists_fix (h : d.Findings offenses found) {o : Offense} (ho : o ∈ offenses) {e : Edit}
    (hedit : o.edit = some e) : ∃ x ∈ found, ∃ e', x.fix = some e' := by
  obtain ⟨i, hi, hat⟩ := List.getElem_of_mem ho
  have ho : offenses[i]? = some o := List.getElem?_eq_some_iff.mpr ⟨hi, hat⟩
  have hx := List.getElem?_eq_getElem (Nat.lt_of_lt_of_eq hi h.length_eq.symm)
  by_contra hnone
  have hfree (x : Diagnostic) (hmem : x ∈ found) (e' : Edit) : x.fix ≠ some e' :=
    fun hfix => hnone ⟨x, hmem, e', hfix⟩
  refine hfree _ (List.mem_of_getElem? hx) e ((h.fix_iff i o _ ho hx e).mpr ⟨hedit, ?_⟩)
  intro j y e' _ hy hfix
  exact absurd hfix (hfree y (List.mem_of_getElem? hy) e')

end Findings

/-- a report on a document has the findings on its offenses, sorted -/
theorem lint_findings (h : d.offenses s = .ok offenses) {report : Report}
    (hreport : d.lint s true = .ok report) :
    ∃ found, d.Findings offenses found ∧ report = .ofDiagnostics found := by
  obtain ⟨rulings, found, hrulings, hfound, rfl⟩ := lint_eq_ok hreport
  obtain ⟨offenses', hoffenses, rfl⟩ := rulings_eq_ok hrulings
  obtain rfl := Except.ok.inj (h.symm.trans hoffenses)
  exact ⟨found, findings_of_rulings hfound, rfl⟩

end Document

/-! ## the report -/

/-- the anchor of an offense lies in the text, and its edit is not reversed -/
structure Offense.Reportable (t : Text) (o : Offense) : Prop where
  anchored : (t.slice? o.anchor).isSome = true
  ordered : ∀ e, o.edit = some e → e.span.start ≤ e.span.stop

theorem Offense.checkEdit_eq_ok {o : Offense} :
    o.checkEdit = .ok () ↔ ∀ e, o.edit = some e → e.span.start ≤ e.span.stop := by
  unfold checkEdit
  cases o.edit with
  | none => simp
  | some edit => simp

theorem forM_checkEdit_eq_ok {offenses : List Offense} :
    offenses.forM Offense.checkEdit = .ok () ↔ ∀ o ∈ offenses, o.checkEdit = .ok () := by
  induction offenses with
  | nil => exact ⟨fun _ o ho => (nomatch ho), fun _ => rfl⟩
  | cons o os ih =>
    rw [List.forall_mem_cons, ← ih]
    show (o.checkEdit >>= fun _ => os.forM Offense.checkEdit) = .ok () ↔ _
    cases o.checkEdit with
    | error e => exact ⟨fun h => (nomatch h), fun h => (nomatch h.1)⟩
    | ok u => exact ⟨fun h => ⟨rfl, h⟩, fun h => h.2⟩

theorem Ruling.exists_diagnostic {r : Ruling} :
    (∃ x, r.diagnostic t = .ok x) ↔ (t.slice? r.offense.anchor).isSome = true := by
  unfold diagnostic diagnosticIn Text.slice
  cases t.slice? r.offense.anchor with
  | none => exact ⟨fun ⟨_, h⟩ => (nomatch h), fun h => (nomatch h)⟩
  | some anchor => exact ⟨fun _ => rfl, fun _ => ⟨_, rfl⟩⟩

namespace Document
variable {s : Settings} {offenses : List Offense}

/-- when the rules return, the only faults left are in what they return -/
theorem exists_lint_iff (h : d.offenses s = .ok offenses) :
    (∃ report, d.lint s true = .ok report) ↔ ∀ o ∈ offenses, o.Reportable d.text := by
  have hrulings : d.rulings s true
      = (offenses.forM Offense.checkEdit >>= fun _ => .ok (Ruling.ofOffenses [] offenses)) := by
    rw [rulings, h]
    rfl
  have hmem (o : Offense) : o ∈ offenses ↔ ∃ r ∈ Ruling.ofOffenses [] offenses, r.offense = o := by
    rw [← List.mem_map, Ruling.map_offense]
  constructor
  · rintro ⟨report, hreport⟩ o ho
    obtain ⟨rulings, found, hruled, hfound, -⟩ := lint_eq_ok hreport
    obtain ⟨_, hchecked, hruled⟩ := bind_eq_ok (hrulings.symm.trans hruled)
    obtain rfl := Except.ok.inj hruled
    obtain ⟨r, hr, rfl⟩ := (hmem o).mp ho
    obtain ⟨x, -, hdiagnostic⟩ := (mem_of_mapM_ok hfound).2 r hr
    exact ⟨Ruling.exists_diagnostic.mp ⟨x, hdiagnostic⟩,
      Offense.checkEdit_eq_ok.mp (forM_checkEdit_eq_ok.mp hchecked r.offense ho)⟩
  · intro hreportable
    have hchecked : offenses.forM Offense.checkEdit = .ok () :=
      forM_checkEdit_eq_ok.mpr fun o ho => Offense.checkEdit_eq_ok.mpr (hreportable o ho).ordered
    obtain ⟨found, hfound, -⟩ : Safe ((Ruling.ofOffenses [] offenses).mapM
        (Ruling.diagnostic d.text)) (fun found => found.map (fun _ => ()) = _ ∧ ∀ x ∈ found, True) := by
      refine Safe.mapM (h := fun _ => ()) fun r hr => ?_
      have hanchored := (hreportable _ ((hmem _).mpr ⟨r, hr, rfl⟩)).anchored
      obtain ⟨x, hx⟩ := Ruling.exists_diagnostic.mpr hanchored
      exact ⟨x, hx, rfl, trivial⟩
    refine ⟨.ofDiagnostics found, ?_⟩
    rw [lint, lintIn, hrulings, hchecked]
    show ((Ruling.ofOffenses [] offenses).mapM (Ruling.diagnostic d.text) >>= _) = _
    rw [hfound]
    rfl

/-- **Admission is sound and maximal.**  For any document on which the rules return: the offenses
come node by node, and at a node rule by rule.  There is a report unless an anchor or an edit that a
rule returned is faulty.  It has one finding for every offense, sorted by offset, code and message;
an edit is admitted iff it overlaps none that was admitted before it.  The edits of the report are
those admitted, each once and sorted, and there are some if any offense has one. -/
theorem lint_admits (h : d.offenses s = .ok offenses) :
    offenses = d.preorder.flatMap
      (fun id => (Rule.enabled s).filterMap (fun rule => rule.find s d id))
    ∧ ((∃ report, d.lint s true = .ok report) ↔ ∀ o ∈ offenses, o.Reportable d.text)
    ∧ ∀ report, d.lint s true = .ok report → ∃ found, d.Findings offenses found
      ∧ report.diagnostics.Perm found
      ∧ report.diagnostics.Pairwise (fun x y => x.offset < y.offset ∨
          x.offset = y.offset ∧ (x.code < y.code ∨ x.code = y.code ∧ x.message ≤ y.message))
      ∧ report.edits.Perm (found.filterMap (·.fix))
      ∧ report.edits.Pairwise (fun e e' => e.span.overlaps e'.span = false)
      ∧ report.edits.Pairwise (fun e e' => e.span.start < e'.span.start ∨
          e.span.start = e'.span.start ∧ e.span.stop ≤ e'.span.stop)
      ∧ ((∃ o ∈ offenses, o.edit.isSome = true) → report.edits ≠ []) := by
  refine ⟨?_, exists_lint_iff h, fun report hreport => ?_⟩
  · rw [offensesAt_eq_ok h, visits, List.filterMap_flatMap]
    simp only [List.filterMap_map]
    rfl
  obtain ⟨found, hfindings, rfl⟩ := lint_findings h hreport
  have hperm := Report.edits_perm found
  refine ⟨found, hfindings, sortBy_perm found, ?_, hperm, hfindings.apart.perm hperm.symm, ?_, ?_⟩
  · refine (sortBy_pairwise Diagnostic.before_total Diagnostic.before_trans found).imp ?_
    exact fun hbefore => Diagnostic.before_iff.mp hbefore
  · refine (Edit.sorted_pairwise _).imp ?_
    intro e e' hbefore
    simpa [Span.before] using hbefore
  · rintro ⟨o, ho, hsome⟩ hnil
    obtain ⟨e, hedit⟩ := Option.isSome_iff_exists.mp hsome
    obtain ⟨x, hx, e', hfix⟩ := hfindings.exists_fix ho hedit
    have hmem : e' ∈ found.filterMap (·.fix) := List.mem_filterMap.mpr ⟨x, hx, hfix⟩
    rw [← hperm.mem_iff, hnil] at hmem
    exact List.not_mem_nil hmem

/-- two rules want to mend the keywords of a call, and one of them a literal below -/
theorem lint_admits_tail :
    ∃ d offenses report,
      Document.read "foo b: 1, a: 2\nx = \x7b d: 1, c: 2 \x7d".toList = .ok d ∧
      d.offenses ⟨[("Canon/SortKeywords", { methods := ["foo".toList] })]⟩ = .ok offenses ∧
      d.lint ⟨[("Canon/SortKeywords", { methods := ["foo".toList] })]⟩ true = .ok report ∧
      report.diagnostics.map (fun x => (x.code, x.notes, x.fix.map (·.span)))
        = [("Canon/SortKeywords", [], some ⟨4, 14⟩),
          ("Canon/SortHash", [Ruling.deferredNote], none),
          ("Canon/SortHash", [], some ⟨21, 31⟩)] ∧
      ∃ found, d.Findings offenses found ∧ report.diagnostics.Perm found ∧
        report.edits.Perm (found.filterMap (·.fix)) := by
  have hrun : (Document.read "foo b: 1, a: 2\nx = \x7b d: 1, c: 2 \x7d".toList).toOption.bind
      (fun d => (d.lint ⟨[("Canon/SortKeywords", { methods := ["foo".toList] })]⟩ true).toOption.map
        (fun report => report.diagnostics.map (fun x => (x.code, x.notes, x.fix.map (·.span)))))
      = some [("Canon/SortKeywords", [], some ⟨4, 14⟩),
          ("Canon/SortHash", [Ruling.deferredNote], none),
          ("Canon/SortHash", [], some ⟨21, 31⟩)] := by
    decide +kernel
  obtain ⟨d, hd, hrun⟩ := Option.bind_eq_some_iff.mp hrun
  obtain ⟨report, hreport, hfindings⟩ := Option.map_eq_some_iff.mp hrun
  have hreport := eq_ok_of_toOption hreport
  obtain ⟨rulings, -, hrulings, -⟩ := lint_eq_ok hreport
  obtain ⟨offenses, hoffenses, -⟩ := rulings_eq_ok hrulings
  obtain ⟨-, -, hadmits⟩ := lint_admits hoffenses
  obtain ⟨found, hfound, hperm, -, hedits, -⟩ := hadmits report hreport
  exact ⟨d, offenses, report, eq_ok_of_toOption hd, hoffenses, hreport, hfindings, found, hfound,
    hperm, hedits⟩

end Document

end Collate
