import Collate.Correction
import Collate.Proofs.Rule
import Collate.Proofs.Text.Lines

/-!
# Linting and correction never fail

A document that was read is linted without a fault when the numbers of a place are cut to 32 bits, and
the edits of the report can be applied together: each of them replaces characters of the text, and no two
of them overlap, because an edit is only admitted beside the ones before it.  So a round of correction can
only fail to read.
-/

namespace Collate

variable {d : Document} {t : Text}

/-! ## offenses -/

theorem Document.offensesAt_safe (h : d.Placed) (s : Settings) (visits : List (Nat × Rule)) :
    Safe (d.offensesAt s visits) (fun offenses => ∀ o ∈ offenses, o.Fits d.text) := by
  induction visits with
  | nil => exact Safe.ok (by simp)
  | cons visit visits ih =>
    obtain ⟨id, rule⟩ := visit
    unfold offensesAt
    refine Safe.bind (Rule.check_safe h rule s id) ?_
    intro found hfound
    refine ih.bind ?_
    intro others hothers
    refine Safe.ok ?_
    intro o ho
    rcases List.mem_append.mp ho with ho | ho
    · exact hfound o (Option.mem_toList.mp ho)
    · exact hothers o ho

theorem checkEdit_of_fits {o : Offense} (h : o.Fits t) : o.checkEdit = .ok () := by
  unfold Offense.checkEdit
  split
  next edit hedit => exact if_pos (Nat.le_of_lt (h.edit_fits edit hedit).nonempty)
  next => rfl

theorem forM_checkEdit {offenses : List Offense} (h : ∀ o ∈ offenses, o.Fits t) :
    offenses.forM Offense.checkEdit = .ok () := by
  induction offenses with
  | nil => rfl
  | cons o os ih =>
    show (o.checkEdit >>= fun _ => os.forM Offense.checkEdit) = .ok ()
    rw [checkEdit_of_fits (h o List.mem_cons_self)]
    exact ih (fun x hx => h x (List.mem_cons_of_mem _ hx))

/-! ## rulings -/

def Ruling.admitted (rulings : List Ruling) : List Edit :=
  rulings.filterMap (·.fix)

theorem Ruling.offense_mem {held : List Span} {offenses : List Offense} :
    ∀ r ∈ ofOffenses held offenses, r.offense ∈ offenses := by
  induction offenses generalizing held with
  | nil =>
    intro r hr
    exact nomatch hr
  | cons o os ih =>
    intro r hr
    rw [ofOffenses] at hr
    -- every branch puts one ruling on the first offense in front
    have hcons {first : Ruling} {held' : List Span} (hfirst : first.offense = o)
        (hr : r ∈ first :: ofOffenses held' os) : r.offense ∈ o :: os := by
      rcases List.mem_cons.mp hr with rfl | hr
      · rw [hfirst]
        exact List.mem_cons_self
      · exact List.mem_cons_of_mem _ (ih r hr)
    split at hr
    next => exact hcons rfl hr
    next =>
      split at hr
      next => exact hcons rfl hr
      next => exact hcons rfl hr

/-- admitted edits are edits of offenses, and overlap neither each other nor the spans held -/
theorem Ruling.admitted_apart (offenses : List Offense) :
    ∀ held, (∀ e ∈ admitted (ofOffenses held offenses), ∃ o ∈ offenses, o.edit = some e) ∧
      Edit.Apart (admitted (ofOffenses held offenses)) ∧
      ∀ e ∈ admitted (ofOffenses held offenses), ∀ span ∈ held, span.overlaps e.span = false := by
  induction offenses with
  | nil =>
    intro held
    exact ⟨by simp [ofOffenses, admitted], List.Pairwise.nil, by simp [ofOffenses, admitted]⟩
  | cons o os ih =>
    intro held
    rw [ofOffenses]
    have hskip {r : Ruling} (hr : r.fix = none) :
        admitted (r :: ofOffenses held os) = admitted (ofOffenses held os) := by
      rw [admitted, List.filterMap_cons_none hr]
      rfl
    have hold : (∀ e ∈ admitted (ofOffenses held os), ∃ o' ∈ o :: os, o'.edit = some e) ∧
        Edit.Apart (admitted (ofOffenses held os)) ∧
        ∀ e ∈ admitted (ofOffenses held os), ∀ span ∈ held, span.overlaps e.span = false := by
      obtain ⟨hmem, hapart, hheld⟩ := ih held
      refine ⟨fun e he => ?_, hapart, hheld⟩
      obtain ⟨o', ho', hedit⟩ := hmem e he
      exact ⟨o', List.mem_cons_of_mem _ ho', hedit⟩
    split
    next =>
      rw [hskip rfl]
      exact hold
    next edit hedit =>
      split
      next =>
        rw [hskip rfl]
        exact hold
      next hfree =>
        have hnew : admitted (⟨o, some edit, false⟩ :: ofOffenses (held ++ [edit.span]) os)
            = edit :: admitted (ofOffenses (held ++ [edit.span]) os) := rfl
        obtain ⟨hmem, hapart, hheld⟩ := ih (held ++ [edit.span])
        rw [hnew]
        refine ⟨?_, ?_, ?_⟩
        · intro e he
          rcases List.mem_cons.mp he with rfl | he
          · exact ⟨o, List.mem_cons_self, hedit⟩
          · obtain ⟨o', ho', hedit'⟩ := hmem e he
            exact ⟨o', List.mem_cons_of_mem _ ho', hedit'⟩
        · refine List.pairwise_cons.mpr ⟨fun e he => ?_, hapart⟩
          exact hheld e he edit.span (List.mem_append_right _ (List.mem_singleton.mpr rfl))
        · intro e he span hspan
          rcases List.mem_cons.mp he with rfl | he
          · have hnone := List.any_eq_false.mp (Bool.eq_false_iff.mpr hfree) span hspan
            exact Bool.eq_false_iff.mpr hnone
          · exact hheld e he span (List.mem_append_left _ hspan)

/-! ## the report -/

/-- a ruling on an offense that is anchored in the text is reported with its edit -/
theorem Ruling.diagnostic_safe {r : Ruling} (h : r.offense.Fits t) :
    Safe (r.diagnostic t) (fun diagnostic => diagnostic.fix = r.fix ∧ True) := by
  obtain ⟨text, htext⟩ := h.anchored
  unfold diagnostic diagnosticIn
  refine (Sequence.slice_safe htext).bind ?_
  intro anchor _
  exact Safe.ok ⟨rfl, trivial⟩

theorem Report.edits_perm (diagnostics : List Diagnostic) :
    (Report.ofDiagnostics diagnostics).edits.Perm (diagnostics.filterMap (·.fix)) :=
  (Edit.sorted_perm _).trans ((sortBy_perm diagnostics).filterMap _)

/-- with correction, the rulings on a placed document are those on its offenses -/
theorem Document.rulings_eq (h : d.Placed) (s : Settings) :
    ∃ offenses, d.offenses s = .ok offenses ∧
      d.rulings s true = .ok (Ruling.ofOffenses [] offenses) ∧ ∀ o ∈ offenses, o.Fits d.text := by
  obtain ⟨offenses, hoffenses, hfits⟩ := offensesAt_safe h s (d.visits s)
  refine ⟨offenses, hoffenses, ?_, hfits⟩
  unfold rulings Document.offenses
  rw [hoffenses]
  show (offenses.forM Offense.checkEdit >>= fun _ => pure (Ruling.ofOffenses [] offenses)) = _
  rw [forM_checkEdit hfits]
  rfl

/-- a placed document is linted, and the edits of the report fit and do not overlap -/
theorem Document.lint_safe (h : d.Placed) (s : Settings) :
    Safe (d.lint s true) (fun report =>
      (∀ e ∈ report.edits, e.Fits d.text) ∧ Edit.Apart report.edits) := by
  obtain ⟨offenses, -, hrulings, hfits⟩ := rulings_eq h s
  obtain ⟨hmem, hapart, -⟩ := Ruling.admitted_apart offenses []
  have hreported : ∀ r ∈ Ruling.ofOffenses [] offenses,
      Safe (r.diagnostic d.text) (fun diagnostic => diagnostic.fix = r.fix ∧ True) :=
    fun r hr => Ruling.diagnostic_safe (hfits _ (Ruling.offense_mem r hr))
  unfold lint lintIn
  rw [hrulings]
  refine (Safe.mapM hreported).bind ?_
  rintro diagnostics ⟨hfix, -⟩
  have hedits : diagnostics.filterMap (·.fix) = Ruling.admitted (Ruling.ofOffenses [] offenses) := by
    have hmap := congrArg (List.filterMap id) hfix
    rw [List.filterMap_map, List.filterMap_map] at hmap
    exact hmap
  have hperm := Report.edits_perm diagnostics
  rw [hedits] at hperm
  refine Safe.ok ⟨?_, hapart.perm hperm.symm⟩
  intro e he
  obtain ⟨o, ho, hedit⟩ := hmem e (hperm.mem_iff.mp he)
  exact (hfits o ho).edit_fits e hedit

/-! ## rounds of correction -/

namespace Correction

/-- the text after some rounds that each mended something -/
inductive Reached (s : Settings) (t : Text) : Nat → Text → Prop
  | start : Reached s t 0 t
  | step {n : Nat} {now mended : Text} {count : Nat} (h : Reached s t n now)
      (hround : round .standard s n now = .ok (some (mended, count))) : Reached s t (n + 1) mended

/-- a round fails only if the text cannot be read -/
theorem round_error {s : Settings} {pass : Nat} {t : Text} {cause : CorrectionCause}
    (h : round .standard s pass t = .error cause) :
    ∃ error, Document.read t = .error error ∧ cause = .unreadable (error.display t) := by
  cases hread : Document.read t with
  | error error =>
    have hreader : DocumentReader.standard pass t = .error (error.display t) := by
      rw [DocumentReader.standard, hread]
    rw [round, editsOf, hreader] at h
    exact ⟨error, rfl, (Except.error.inj h).symm⟩
  | ok d =>
    obtain ⟨rfl, hplaced⟩ := Document.placed_of_read hread
    obtain ⟨report, hreport, hfits, hapart⟩ := Document.lint_safe hplaced s
    obtain ⟨mended, hmended⟩ := Edit.applyAll_of_apart hfits hapart
    have hreader : DocumentReader.standard pass d.text = .ok d := by
      rw [DocumentReader.standard, hread]
    have hedits : editsOf .standard s pass d.text = .ok report.edits := by
      simp only [editsOf, hreader, hreport]
    rw [round, hedits] at h
    change (if report.edits.isEmpty then pure none else _) = _ at h
    rw [hmended] at h
    split at h
    · exact nomatch h
    · exact nomatch h

/-- A label that has no value and is moved behind its siblings takes what follows for its value.
Here that is a word which cannot be one, and the corrected text is refused. -/
theorem round_unreadable :
    ∃ mended count error,
      round .standard .default 0 "if x then foo b:, a: 1 else 2 end".toList
        = .ok (some (mended, count)) ∧
      mended = "if x then foo a: 1, b: else 2 end".toList ∧
      Document.read mended = .error error := by
  have hround : (round .standard .default 0
      "if x then foo b:, a: 1 else 2 end".toList).toOption
      = some (some ("if x then foo a: 1, b: else 2 end".toList, 1)) := by
    decide +kernel
  have hread : (Document.read "if x then foo a: 1, b: else 2 end".toList).toOption = none := by
    decide +kernel
  cases h : round .standard .default 0 "if x then foo b:, a: 1 else 2 end".toList with
  | error cause =>
    rw [h] at hround
    exact nomatch hround
  | ok found =>
    rw [h] at hround
    cases h' : Document.read "if x then foo a: 1, b: else 2 end".toList with
    | ok d =>
      rw [h'] at hread
      exact nomatch hread
    | error error =>
      exact ⟨_, _, error, by rw [← Option.some.inj hround], rfl, h'⟩

theorem proceed_error {s : Settings} {t : Text} {e : CorrectionError} (left : Nat) :
    ∀ done : Correction, Reached s t done.passes done.text →
      proceed .standard s left done = .error e → ∃ n now error, Reached s t n now ∧ e.pass = n + 1 ∧
        Document.read now = .error error ∧ e.cause = .unreadable (error.display now) := by
  induction left with
  | zero =>
    intro done _ h
    exact nomatch h
  | succ left ih =>
    intro done hreached h
    rw [proceed] at h
    split at h
    next cause hround =>
      obtain ⟨error, hread, hcause⟩ := round_error hround
      rw [← Except.error.inj h]
      exact ⟨done.passes, done.text, error, hreached, rfl, hread, hcause⟩
    next => exact nomatch h
    next mended count hround => exact ih _ (hreached.step hround) h

end Correction

end Collate
