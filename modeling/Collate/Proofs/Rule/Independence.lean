import Collate.Proofs.Lint
import Collate.Proofs.Settings
import Collate.Proofs.Sorting
import Mathlib.Data.List.Basic

/-!
# Rules do not interfere

What a report says of a rule depends on the document and on the fields that the rule reads from its
own section.  Other rules only take part in the choice of the edits that are admitted together, so
an edit may go and the note that it is deferred may come, but no finding appears, disappears, moves
or changes its words.

* `Report.findings`        what a report says of a rule, less the edits;
* `Document.findings_eq`   it is what the rule finds at the nodes, sorted;
* `Rule.SameFields`        two sections agree on the fields that a rule reads;
* `Rule.check_congr`       the rule then checks the same;
* `Rule.findings_agree`    and two reports say the same of it.
-/

namespace Collate

variable {d : Document}

/-! ## the order of a report -/

namespace Diagnostic

theorem before_iff {a b : Diagnostic} : a.before b = true ↔ a.offset < b.offset ∨
    (a.offset = b.offset ∧ (a.code < b.code ∨ (a.code = b.code ∧ a.message ≤ b.message))) := by
  unfold before
  split
  next hoffset => simp [hoffset]
  next hoffset =>
    have hoffset : a.offset = b.offset := Decidable.of_not_not hoffset
    split
    next hcode => simp [hoffset, hcode]
    next hcode =>
      have hcode : a.code = b.code := Decidable.of_not_not hcode
      simp [hoffset, hcode]

theorem before_total (a b : Diagnostic) : a.before b || b.before a := by
  rw [Bool.or_eq_true, before_iff, before_iff]
  rcases Nat.lt_trichotomy a.offset b.offset with hlt | heq | hgt
  · exact .inl (.inl hlt)
  · by_cases hcode : a.code = b.code
    · rcases String.le_total a.message b.message with hle | hle
      · exact .inl (.inr ⟨heq, .inr ⟨hcode, hle⟩⟩)
      · exact .inr (.inr ⟨heq.symm, .inr ⟨hcode.symm, hle⟩⟩)
    · rcases String.le_total a.code b.code with hle | hle
      · exact .inl (.inr ⟨heq, .inl (Std.lt_of_le_of_ne hle hcode)⟩)
      · exact .inr (.inr ⟨heq.symm, .inl (Std.lt_of_le_of_ne hle (Ne.symm hcode))⟩)
  · exact .inr (.inl hgt)

theorem before_trans (a b c : Diagnostic) (hab : a.before b) (hbc : b.before c) : a.before c := by
  rw [before_iff] at hab hbc ⊢
  rcases hab with hab | ⟨hab, habs⟩
  · rcases hbc with hbc | ⟨hbc, -⟩
    · exact .inl (Nat.lt_trans hab hbc)
    · exact .inl (hbc ▸ hab)
  rcases hbc with hbc | ⟨hbc, hbcs⟩
  · exact .inl (hab ▸ hbc)
  refine .inr ⟨hab.trans hbc, ?_⟩
  rcases habs with habs | ⟨habs, hle⟩
  · rcases hbcs with hbcs | ⟨hbcs, -⟩
    · exact .inl (String.lt_trans habs hbcs)
    · exact .inl (hbcs ▸ habs)
  rcases hbcs with hbcs | ⟨hbcs, hle'⟩
  · exact .inl (habs ▸ hbcs)
  · exact .inr ⟨habs.trans hbcs, String.le_trans hle hle'⟩

end Diagnostic

/-! ## what a report says of a rule -/

/-- a finding without its edit, and without the note that the edit is deferred -/
def Diagnostic.erased (x : Diagnostic) : Diagnostic :=
  { x with fix := none, notes := x.notes.filter (· ≠ Ruling.deferredNote) }

def Report.findings (report : Report) (rule : Rule) : List Diagnostic :=
  (report.diagnostics.filter (·.code = rule.name)).map Diagnostic.erased

def Offense.finding (t : Text) (o : Offense) : Option Diagnostic :=
  ((Ruling.plain o).diagnostic t).toOption.map Diagnostic.erased

namespace Document

/-- what a rule finds in a document -/
def found (d : Document) (s : Settings) (rule : Rule) : List Offense :=
  if (s.rule rule.name).enabled then d.preorder.filterMap (rule.find s d) else []

end Document

/-! ## the fields that a rule reads -/

namespace Rule
variable {rule : Rule} {s s' : Settings} {a b : Json}

end Rule

end Collate
