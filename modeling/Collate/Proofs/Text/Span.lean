import Collate.Text.Span

/-!
# Spans that follow each other

* `Span.Precedes`   one span ends before another begins;
* `Span.join_eq`    joining a span with one behind it;
* `Span.contains_iff`, `Span.before_iff`, `Span.overlaps_comm`, `Span.overlaps_eq_false`
                    the relations of spans, in terms of their ends;
* `Span.precedes_of_before`, `Span.overlaps_false_of_neighbour`
                    spans in order, some of them without characters;
* `Span.precedes_of_pairwise`   things in a row stand before or behind each other.
-/

namespace Collate

namespace Span

/-- the first span ends before the second one begins -/
def Precedes (a b : Span) : Prop :=
  a.stop ≤ b.start

theorem join_eq {a b : Span} (hstart : a.start ≤ b.start) (hstop : a.stop ≤ b.stop) :
    a.join b = ⟨a.start, b.stop⟩ := by
  rw [join, Nat.min_eq_left hstart, Nat.max_eq_right hstop]

theorem contains_iff {a b : Span} :
    a.contains b = true ↔ a.start ≤ b.start ∧ b.stop ≤ a.stop := by
  simp [contains]

theorem before_iff {a b : Span} :
    a.before b = true ↔ a.start < b.start ∨ (a.start = b.start ∧ a.stop ≤ b.stop) := by
  simp [before]

theorem before_antisymm {a b : Span} (hab : a.before b = true) (hba : b.before a = true) : a = b := by
  rw [before_iff] at hab hba
  rw [Span.mk.injEq]
  omega

theorem overlaps_comm (a b : Span) : a.overlaps b = b.overlaps a := by
  unfold overlaps
  rw [Bool.and_comm a.isEmpty]
  split
  next => exact BEq.comm
  next => exact Bool.and_comm _ _

/-! ## spans in order -/

/-- When two spans do not overlap: two without characters stand at different offsets, otherwise one of them
ends before the other begins. -/
theorem overlaps_eq_false {a b : Span} : a.overlaps b = false ↔
    if a.start = a.stop ∧ b.start = b.stop then a.start ≠ b.start
    else b.stop ≤ a.start ∨ a.stop ≤ b.start := by
  simp only [overlaps, isEmpty, Bool.and_eq_true, beq_iff_eq]
  split
  next => exact beq_eq_false_iff_ne
  next => simp only [Bool.and_eq_false_iff, decide_eq_false_iff_not, Nat.not_lt]

theorem overlaps_false_of_precedes {a b : Span} (ha : a.start < a.stop)
    (h : a.Precedes b ∨ b.Precedes a) : a.overlaps b = false := by
  rw [overlaps_eq_false, if_neg fun hempty => Nat.ne_of_lt ha hempty.1]
  exact h.symm

/-- of two spans in order that do not overlap, the first ends before the second begins -/
theorem precedes_of_before {a b : Span} (hb : b.start ≤ b.stop) (hbefore : a.before b = true)
    (h : a.overlaps b = false) : a.Precedes b := by
  rw [before_iff] at hbefore
  rw [overlaps_eq_false] at h
  show a.stop ≤ b.start
  split at h <;> omega

/-- a span that does not overlap the next one in order overlaps none behind that one -/
theorem overlaps_false_of_neighbour {a b c : Span} (hb : b.start ≤ b.stop) (hc : c.start ≤ c.stop)
    (hab : a.before b = true) (hbc : b.before c = true) (h : a.overlaps b = false) :
    a.overlaps c = false := by
  rw [before_iff] at hab hbc
  rw [overlaps_eq_false] at h ⊢
  split at h <;> split <;> omega

theorem overlaps_self {a : Span} (h : a.start ≤ a.stop) : a.overlaps a = true := by
  rw [← Bool.not_eq_false, overlaps_eq_false]
  split <;> omega

theorem precedes_of_pairwise {α : Type} {f : α → Span} {row : List α}
    (h : row.Pairwise (fun a b => (f a).Precedes (f b))) {a b : α} (ha : a ∈ row) (hb : b ∈ row)
    (hne : a ≠ b) : (f a).Precedes (f b) ∨ (f b).Precedes (f a) := by
  have hall := List.Pairwise.forall_of_forall_of_flip
    (R := fun x y => x ≠ y → (f x).Precedes (f y) ∨ (f y).Precedes (f x))
    (fun _ _ hx => absurd rfl hx) (h.imp (fun hxy _ => .inl hxy)) (h.imp (fun hxy _ => .inr hxy))
  exact hall ha hb hne

end Span

end Collate
