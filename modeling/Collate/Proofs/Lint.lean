import Collate.Proofs.Correction
import Collate.Proofs.Rule.Found

/-!
# What a report says

Every rule that is switched on looks at every node, each of its offenses is reported once, and an
edit that is not admitted overlaps one that is.  On a placed document nothing of this fails.

* `Document.offensesAt_eq_ok` the offenses are what the rules find, in the order of the visits;
* `Document.lint_eq_ok`       a report is made of the rulings on the offenses;
* `Ruling.overlaps_admitted`  why an edit is deferred;
* `Diagnostic.Reports`        a finding reports an offense;
* `Document.Linted`           offenses and report of a document, and how they correspond;
* `Document.Linted.deferred_by_other`   edits that do not overlap are deferred by another rule.
-/

namespace Collate

variable {d : Document} {t : Text}

/-! ## offenses -/

namespace Document

def findAt (d : Document) (s : Settings) (visit : Nat × Rule) : Option Offense :=
  visit.2.find s d visit.1

theorem offensesAt_eq_ok {s : Settings} {visits : List (Nat × Rule)} :
    ∀ {offenses : List Offense}, d.offensesAt s visits = .ok offenses →
      offenses = visits.filterMap (d.findAt s) := by
  induction visits with
  | nil =>
    intro offenses h
    exact (Except.ok.inj h).symm
  | cons visit visits ih =>
    intro offenses h
    obtain ⟨id, rule⟩ := visit
    obtain ⟨found, hfound, h⟩ := bind_eq_ok (x := (rule.check s d id).run) h
    obtain ⟨others, hothers, h⟩ := bind_eq_ok (x := d.offensesAt s visits) h
    have hvalue : d.findAt s (id, rule) = found := by
      rw [findAt, Rule.find, Attempt.value, hfound]
    rw [← Except.ok.inj h, ih hothers, List.filterMap_cons, hvalue]
    cases found with
    | none => rfl
    | some o => rfl

theorem offenses_eq (h : d.Placed) (s : Settings) :
    d.offenses s = .ok ((d.visits s).filterMap (d.findAt s)) := by
  obtain ⟨offenses, hoffenses, -⟩ := offensesAt_safe h s (d.visits s)
  rw [← offensesAt_eq_ok hoffenses]
  exact hoffenses

theorem rulings_eq_ok {s : Settings} {correct : Bool} {rulings : List Ruling}
    (h : d.rulings s correct = .ok rulings) : ∃ offenses, d.offenses s = .ok offenses ∧
      rulings = if correct then Ruling.ofOffenses [] offenses else offenses.map Ruling.plain := by
  obtain ⟨offenses, hoffenses, h⟩ := bind_eq_ok (x := d.offenses s) h
  refine ⟨offenses, hoffenses, ?_⟩
  cases correct with
  | false => exact (Except.ok.inj h).symm
  | true =>
    obtain ⟨-, -, h⟩ := bind_eq_ok (x := offenses.forM Offense.checkEdit) h
    exact (Except.ok.inj h).symm

theorem lint_eq_ok {s : Settings} {correct : Bool} {report : Report}
    (h : d.lint s correct = .ok report) : ∃ rulings found, d.rulings s correct = .ok rulings ∧
      rulings.mapM (Ruling.diagnostic d.text) = .ok found ∧ report = .ofDiagnostics found := by
  obtain ⟨rulings, hrulings, h⟩ := bind_eq_ok (x := d.rulings s correct) h
  obtain ⟨found, hfound, h⟩ := bind_eq_ok (x := rulings.mapM (Ruling.diagnostic d.text)) h
  exact ⟨rulings, found, hrulings, hfound, (Except.ok.inj h).symm⟩

theorem mem_visits {s : Settings} {id : Nat} {rule : Rule} :
    (id, rule) ∈ d.visits s ↔ id ∈ d.preorder ∧ (s.rule rule.name).enabled = true := by
  have hall : rule ∈ Rule.all := by cases rule <;> decide
  simp [visits, Rule.enabled, hall]

end Document

/-- an offense is what some rule that is switched on finds at some node -/
theorem Document.mem_offenses {s : Settings} {offenses : List Offense} {o : Offense}
    (hoffenses : d.offenses s = .ok offenses) :
    o ∈ offenses ↔ ∃ id ∈ d.preorder, ∃ rule : Rule, (s.rule rule.name).enabled = true ∧
      rule.find s d id = some o := by
  rw [offensesAt_eq_ok hoffenses, List.mem_filterMap]
  constructor
  · rintro ⟨⟨id, rule⟩, hvisit, hfound⟩
    obtain ⟨hid, hon⟩ := mem_visits.mp hvisit
    exact ⟨id, hid, rule, hon, hfound⟩
  · rintro ⟨id, hid, rule, hon, hfound⟩
    exact ⟨(id, rule), mem_visits.mpr ⟨hid, hon⟩, hfound⟩

theorem Rule.name_injective {rule rule' : Rule} (h : rule.name = rule'.name) : rule = rule' := by
  cases rule <;> cases rule' <;> first | rfl | exact absurd h (by decide)

/-! ## rulings -/

namespace Ruling

theorem map_offense (offenses : List Offense) :
    ∀ held, (ofOffenses held offenses).map (·.offense) = offenses := by
  induction offenses with
  | nil =>
    intro held
    rfl
  | cons o os ih =>
    intro held
    rw [ofOffenses]
    split
    next => rw [List.map_cons, ih]; rfl
    next =>
      split
      next => rw [List.map_cons, ih]
      next => rw [List.map_cons, ih]

/-- a ruling admits the edit of its offense or, unless it defers it, there is none -/
def Sound (r : Ruling) : Prop :=
  (r.deferred = false ∧ r.fix = r.offense.edit) ∨
    (r.deferred = true ∧ r.fix = none ∧ r.offense.edit.isSome = true)

theorem sound_of_mem (offenses : List Offense) :
    ∀ held, ∀ r ∈ ofOffenses held offenses, r.Sound := by
  induction offenses with
  | nil =>
    intro held r hr
    exact nomatch hr
  | cons o os ih =>
    intro held r hr
    rw [ofOffenses] at hr
    split at hr
    next hedit =>
      rcases List.mem_cons.mp hr with rfl | hr
      · exact .inl ⟨rfl, hedit.symm⟩
      · exact ih _ r hr
    next edit hedit =>
      split at hr
      next =>
        rcases List.mem_cons.mp hr with rfl | hr
        · exact .inr ⟨rfl, rfl, Option.isSome_of_eq_some hedit⟩
        · exact ih _ r hr
      next =>
        rcases List.mem_cons.mp hr with rfl | hr
        · exact .inl ⟨rfl, hedit.symm⟩
        · exact ih _ r hr

theorem overlaps_admitted (offenses : List Offense) :
    ∀ held, ∀ r ∈ ofOffenses held offenses, r.deferred = true →
      ∃ e, r.offense.edit = some e ∧ ((∃ span ∈ held, span.overlaps e.span = true) ∨
        ∃ r' ∈ ofOffenses held offenses, ∃ e', r'.fix = some e' ∧ e'.span.overlaps e.span = true) := by
  induction offenses with
  | nil =>
    intro held r hr
    cases hr
  | cons o os ih =>
    intro held r hr hdeferred
    rw [ofOffenses] at hr ⊢
    -- what the rest overlaps is held, admitted with the first ruling or admitted in the rest
    have hrest {first : Ruling} {held' : List Span}
        (hheld : ∀ span ∈ held', span ∈ held ∨ ∃ e', first.fix = some e' ∧ e'.span = span)
        (hr : r ∈ ofOffenses held' os) :
        ∃ e, r.offense.edit = some e ∧ ((∃ span ∈ held, span.overlaps e.span = true) ∨
          ∃ r' ∈ first :: ofOffenses held' os, ∃ e', r'.fix = some e' ∧
            e'.span.overlaps e.span = true) := by
      obtain ⟨e, he, ⟨span, hspan, hover⟩ | ⟨r', hr', e', hfix, hover⟩⟩ := ih held' r hr hdeferred
      · rcases hheld span hspan with hspan | ⟨e', hfix, rfl⟩
        · exact ⟨e, he, .inl ⟨span, hspan, hover⟩⟩
        · exact ⟨e, he, .inr ⟨first, List.mem_cons_self, e', hfix, hover⟩⟩
      · exact ⟨e, he, .inr ⟨r', List.mem_cons_of_mem _ hr', e', hfix, hover⟩⟩
    split at hr
    next =>
      rcases List.mem_cons.mp hr with rfl | hr
      · cases hdeferred
      · exact hrest (fun span hspan => .inl hspan) hr
    next edit hedit =>
      split at hr
      next hheld =>
        rcases List.mem_cons.mp hr with rfl | hr
        · exact ⟨edit, hedit, .inl (List.any_eq_true.mp hheld)⟩
        · rw [if_pos hheld]
          exact hrest (fun span hspan => .inl hspan) hr
      next hheld =>
        rw [if_neg hheld]
        rcases List.mem_cons.mp hr with rfl | hr
        · cases hdeferred
        · refine hrest (fun span hspan => ?_) hr
          rcases List.mem_append.mp hspan with hspan | hspan
          · exact .inl hspan
          · exact .inr ⟨edit, rfl, (List.mem_singleton.mp hspan).symm⟩

end Ruling

/-! ## findings -/

/-- a finding reports an offense: its rule, its message, its place, and its edit unless that is
deferred -/
structure Diagnostic.Reports (t : Text) (o : Offense) (x : Diagnostic) : Prop where
  code : x.code = o.rule.name
  message : x.message = o.message
  location : x.location = some (.of t o.anchor)
  anchor : x.anchor = t.slice? o.anchor
  fix : x.fix = o.edit ∨
    x.fix = none ∧ o.edit.isSome = true ∧ Ruling.deferredNote ∈ x.notes

theorem Ruling.diagnostic_eq {r : Ruling} {x : Diagnostic} (h : r.diagnostic t = .ok x) :
    x.code = r.offense.rule.name ∧ x.message = r.offense.message ∧
      x.location = some (.of t r.offense.anchor) ∧ x.anchor = t.slice? r.offense.anchor ∧
      x.fix = r.fix ∧
      x.notes = r.offense.note.toList ++ (if r.deferred then [deferredNote] else []) := by
  unfold diagnostic diagnosticIn Text.slice at h
  cases hslice : t.slice? r.offense.anchor with
  | none =>
    rw [hslice] at h
    exact nomatch h
  | some anchor =>
    rw [hslice] at h
    rw [← Except.ok.inj h]
    exact ⟨rfl, rfl, rfl, rfl, rfl, rfl⟩

theorem Ruling.diagnostic_fix {r : Ruling} {x : Diagnostic} (h : r.diagnostic t = .ok x) :
    x.fix = r.fix :=
  (diagnostic_eq h).2.2.2.2.1

theorem Ruling.Sound.reports {r : Ruling} {x : Diagnostic} (hr : r.Sound)
    (h : r.diagnostic t = .ok x) : x.Reports t r.offense := by
  obtain ⟨hcode, hmessage, hlocation, hanchor, hfix, hnotes⟩ := diagnostic_eq h
  refine ⟨hcode, hmessage, hlocation, hanchor, ?_⟩
  rcases hr with ⟨-, hedit⟩ | ⟨hdeferred, hnone, hedit⟩
  · exact .inl (hfix.trans hedit)
  · refine .inr ⟨hfix.trans hnone, hedit, ?_⟩
    rw [hnotes, hdeferred]
    exact List.mem_append_right _ List.mem_cons_self

theorem mem_of_mapM_ok {ε α β : Type} {f : α → Except ε β} {as : List α} :
    ∀ {bs : List β}, as.mapM f = .ok bs →
      (∀ b ∈ bs, ∃ a ∈ as, f a = .ok b) ∧ ∀ a ∈ as, ∃ b ∈ bs, f a = .ok b := by
  induction as with
  | nil =>
    intro bs h
    rw [← Except.ok.inj h]
    exact ⟨by simp, by simp⟩
  | cons a as ih =>
    intro bs h
    rw [List.mapM_cons] at h
    cases hfirst : f a with
    | error e =>
      rw [hfirst] at h
      exact nomatch h
    | ok b =>
      cases hrest : as.mapM f with
      | error e =>
        rw [hfirst, hrest] at h
        exact nomatch h
      | ok bs' =>
        rw [hfirst, hrest] at h
        obtain ⟨hback, hforth⟩ := ih hrest
        rw [← Except.ok.inj h]
        refine ⟨fun x hx => ?_, fun x hx => ?_⟩
        · rcases List.mem_cons.mp hx with rfl | hx
          · exact ⟨a, List.mem_cons_self, hfirst⟩
          · obtain ⟨a', ha', hf⟩ := hback x hx
            exact ⟨a', List.mem_cons_of_mem _ ha', hf⟩
        · rcases List.mem_cons.mp hx with rfl | hx
          · exact ⟨b, List.mem_cons_self, hfirst⟩
          · obtain ⟨b', hb', hf⟩ := hforth x hx
            exact ⟨b', List.mem_cons_of_mem _ hb', hf⟩

theorem Report.mem_edits {diagnostics : List Diagnostic} {e : Edit} :
    e ∈ (Report.ofDiagnostics diagnostics).edits ↔
      ∃ x ∈ (Report.ofDiagnostics diagnostics).diagnostics, x.fix = some e := by
  rw [(edits_perm diagnostics).mem_iff, List.mem_filterMap]
  simp only [ofDiagnostics, (sortBy_perm diagnostics).mem_iff]

/-- a document with its offenses and its report: the report has a finding for every ruling on the
offenses and nothing else, and its edits are those of its findings -/
structure Document.Linted (d : Document) (s : Settings) (offenses : List Offense) (report : Report) :
    Prop where
  offenses_eq : d.offenses s = .ok offenses
  lint_eq : d.lint s true = .ok report
  ruled : ∀ x ∈ report.diagnostics, ∃ r ∈ Ruling.ofOffenses [] offenses, r.diagnostic d.text = .ok x
  reported : ∀ r ∈ Ruling.ofOffenses [] offenses, ∃ x ∈ report.diagnostics, r.diagnostic d.text = .ok x
  fixed : ∀ e ∈ report.edits, ∃ x ∈ report.diagnostics, x.fix = some e

theorem Document.linted_of_ok {s : Settings} {report : Report} (h : d.lint s true = .ok report) :
    ∃ offenses, d.Linted s offenses report := by
  obtain ⟨rulings, found, hrulings, hfound, rfl⟩ := lint_eq_ok h
  obtain ⟨offenses, hoffenses, rfl⟩ := rulings_eq_ok hrulings
  obtain ⟨hback, hforth⟩ := mem_of_mapM_ok hfound
  have hperm (x : Diagnostic) : x ∈ (Report.ofDiagnostics found).diagnostics ↔ x ∈ found :=
    (sortBy_perm found).mem_iff
  refine ⟨offenses, hoffenses, h, fun x hx => hback x ((hperm x).mp hx), fun r hr => ?_,
    fun e he => Report.mem_edits.mp he⟩
  obtain ⟨x, hx, hdiagnostic⟩ := hforth r hr
  exact ⟨x, (hperm x).mpr hx, hdiagnostic⟩

/-- **A placed document is linted**, and findings and rulings correspond. -/
theorem Document.exists_linted (h : d.Placed) (s : Settings) :
    ∃ offenses report, d.Linted s offenses report := by
  obtain ⟨report, hreport, -⟩ := lint_safe h s
  obtain ⟨offenses, hlinted⟩ := linted_of_ok hreport
  exact ⟨offenses, report, hlinted⟩

namespace Document.Linted
variable {s : Settings} {offenses : List Offense} {report : Report}

theorem ruled_reports (h : d.Linted s offenses report) {x : Diagnostic} (hx : x ∈ report.diagnostics) :
    ∃ r ∈ Ruling.ofOffenses [] offenses, r.diagnostic d.text = .ok x ∧ r.offense ∈ offenses ∧
      x.Reports d.text r.offense := by
  obtain ⟨r, hr, hdiagnostic⟩ := h.ruled x hx
  exact ⟨r, hr, hdiagnostic, Ruling.offense_mem r hr,
    (Ruling.sound_of_mem offenses [] r hr).reports hdiagnostic⟩

theorem exists_reports (h : d.Linted s offenses report) {o : Offense} (ho : o ∈ offenses) :
    ∃ x ∈ report.diagnostics, x.Reports d.text o := by
  rw [← Ruling.map_offense offenses []] at ho
  obtain ⟨r, hr, rfl⟩ := List.mem_map.mp ho
  obtain ⟨x, hx, hdiagnostic⟩ := h.reported r hr
  exact ⟨x, hx, (Ruling.sound_of_mem offenses [] r hr).reports hdiagnostic⟩

theorem exists_offense (h : d.Linted s offenses report) {e : Edit} (he : e ∈ report.edits) :
    ∃ o ∈ offenses, o.edit = some e := by
  obtain ⟨x, hx, hfix⟩ := h.fixed e he
  obtain ⟨r, -, -, ho, hreports⟩ := h.ruled_reports hx
  rcases hreports.fix with hedit | ⟨hnone, -⟩
  · exact ⟨r.offense, ho, hedit.symm.trans hfix⟩
  · exact nomatch hnone.symm.trans hfix

/-- if the edits of a rule do not overlap, one of them is deferred because of another rule -/
theorem deferred_by_other (h : d.Linted s offenses report) {rule : Rule}
    (hapart : offenses.Pairwise (fun o o' => o.rule = rule → o'.rule = rule →
      ∀ e ∈ o.edit, ∀ e' ∈ o'.edit, e.span.overlaps e'.span = false)) {x : Diagnostic}
    (hx : x ∈ report.diagnostics) (hcode : x.code = rule.name)
    (hnote : Ruling.deferredNote ∈ x.notes) :
    ∃ o ∈ offenses, x.Reports d.text o ∧ ∃ e, o.edit = some e ∧
      ∃ y ∈ report.diagnostics, y.code ≠ rule.name ∧
        ∃ e', y.fix = some e' ∧ e'.span.overlaps e.span = true := by
  obtain ⟨r, hr, hdiagnostic, ho, hreports⟩ := h.ruled_reports hx
  -- the offense has no such note of its own, so the ruling defers its edit
  have hdeferred : r.deferred = true := by
    obtain ⟨id, -, rule', -, hfound⟩ := (mem_offenses h.offenses_eq).mp ho
    have hnotes := (Ruling.diagnostic_eq hdiagnostic).2.2.2.2.2
    rw [hnotes] at hnote
    by_cases hdeferred : r.deferred = true
    · exact hdeferred
    · rw [if_neg hdeferred, List.append_nil, Option.mem_toList] at hnote
      rcases Rule.find_note hfound with hnone | hloose
      · exact nomatch hnone.symm.trans hnote
      · exact absurd (Option.some.inj (hloose.symm.trans hnote)) (by decide)
  obtain ⟨e, he, hover⟩ := Ruling.overlaps_admitted offenses [] r hr hdeferred
  obtain ⟨r', hr', e', hfix', hover⟩ : ∃ r' ∈ Ruling.ofOffenses [] offenses, ∃ e',
      r'.fix = some e' ∧ e'.span.overlaps e.span = true := by
    rcases hover with ⟨span, hspan, -⟩ | hover
    · exact nomatch hspan
    · exact hover
  obtain ⟨y, hy, hdiagnostic'⟩ := h.reported r' hr'
  obtain ⟨hcode', -, -, -, hfixed, -⟩ := Ruling.diagnostic_eq hdiagnostic'
  refine ⟨r.offense, ho, hreports, e, he, y, hy, fun hsame => ?_, e', hfixed.trans hfix', hover⟩
  -- two rulings for the rule: one defers and the other admits, so their edits do not overlap
  have hrule : r.offense.rule = rule := Rule.name_injective (hreports.code.symm.trans hcode)
  have hrule' : r'.offense.rule = rule := Rule.name_injective (hcode'.symm.trans hsame)
  have hedit' : r'.offense.edit = some e' := by
    rcases Ruling.sound_of_mem offenses [] r' hr' with ⟨-, hedit⟩ | ⟨-, hnone, -⟩
    · exact hedit.symm.trans hfix'
    · exact nomatch hnone.symm.trans hfix'
  have hne : r ≠ r' := by
    rintro rfl
    rcases Ruling.sound_of_mem offenses [] r hr with ⟨hno, -⟩ | ⟨-, hnone, -⟩
    · exact nomatch hno.symm.trans hdeferred
    · exact nomatch hnone.symm.trans hfix'
  rw [← Ruling.map_offense offenses [], List.pairwise_map] at hapart
  have hall : ∀ a ∈ Ruling.ofOffenses [] offenses, ∀ b ∈ Ruling.ofOffenses [] offenses, a ≠ b →
      a.offense.rule = rule → b.offense.rule = rule → ∀ e ∈ a.offense.edit, ∀ e' ∈ b.offense.edit,
        e.span.overlaps e'.span = false := by
    intro a ha b hb
    refine List.Pairwise.forall_of_forall_of_flip (R := fun a b : Ruling => a ≠ b →
      a.offense.rule = rule → b.offense.rule = rule → ∀ e ∈ a.offense.edit, ∀ e' ∈ b.offense.edit,
        e.span.overlaps e'.span = false) ?_ ?_ ?_ ha hb
    · exact fun a _ hne => absurd rfl hne
    · refine hapart.imp ?_
      intro a b hab _
      exact hab
    · refine hapart.imp ?_
      intro a b hab _ hb ha e he e' he'
      rw [Span.overlaps_comm]
      exact hab ha hb e' he' e he
  have hnot := hall r' hr' r hr (fun heq => hne heq.symm) hrule' hrule e' hedit' e he
  rw [hover] at hnot
  exact nomatch hnot

end Document.Linted

end Collate
