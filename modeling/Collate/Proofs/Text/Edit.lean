import Collate.Proofs.Text.Slice
import Collate.Proofs.Text.Span
import Collate.Proofs.Text.Woven
import Collate.Text.Edit

/-!
# Batches that fit

A batch of edits that each cut a piece out of the text, and of which no two overlap, is applied.

* `Edit.Within`     the edit replaces a piece of the text, which may be empty;
* `Edit.Fits`       the edit replaces one character or more;
* `Edit.Apart`      no two edits of a batch overlap;
* `sorted_precedes`   the edits of such a batch follow each other once they are sorted;
* `Edit.Cuts`       the pieces of the text that a batch keeps, and those that it replaces;
* `check_eq_ok`, `checkEach_eq_ok`, `checkPairs_of_apart`   what the checks ask for;
* `applyAll_of_within`, `applyAll_of_apart`   such a batch is applied;
* `applyAll_single`   what a single edit gives.
-/

namespace Collate

namespace Edit

/-- the edit replaces a piece of the text; without characters it is an insertion -/
structure Within (t : Text) (e : Edit) : Prop where
  ordered : e.span.start ≤ e.span.stop
  inside : e.span.stop ≤ t.size
  boundary : t.isBoundary e.span.start = true ∧ t.isBoundary e.span.stop = true

/-- the edit replaces one character or more of a text -/
structure Fits (t : Text) (e : Edit) : Prop where
  nonempty : e.span.start < e.span.stop
  boundary : t.isBoundary e.span.start = true ∧ t.isBoundary e.span.stop = true

theorem Fits.stop_le {t : Text} {e : Edit} (h : e.Fits t) : e.span.stop ≤ t.size :=
  Text.isBoundary_le h.boundary.2

theorem Fits.within {t : Text} {e : Edit} (h : e.Fits t) : e.Within t :=
  ⟨Nat.le_of_lt h.nonempty, h.stop_le, h.boundary⟩

def Apart (edits : List Edit) : Prop :=
  edits.Pairwise (fun a b => a.span.overlaps b.span = false)

variable {t : Text} {edits : List Edit}

theorem Apart.perm {edits' : List Edit} (h : Apart edits) (hp : edits.Perm edits') : Apart edits' := by
  refine hp.pairwise h ?_
  intro a b hab
  rw [Span.overlaps_comm]
  exact hab

/-! ## the sorted batch -/

theorem sorted_perm (edits : List Edit) : (sorted edits).Perm edits :=
  sortBy_perm edits

theorem sorted_pairwise (edits : List Edit) :
    (sorted edits).Pairwise (fun a b => a.span.before b.span = true) := by
  refine sortBy_pairwise ?_ ?_ edits
  · intro a b
    rw [Bool.or_eq_true, Span.before_iff, Span.before_iff]
    omega
  · intro a b c
    rw [Span.before_iff, Span.before_iff, Span.before_iff]
    omega

@[simp]
theorem sorted_singleton (e : Edit) : sorted [e] = [e] := rfl

theorem sorted_precedes (hwithin : ∀ e ∈ edits, e.Within t) (hapart : Apart edits) :
    (sorted edits).Pairwise (fun a b => a.span.Precedes b.span) := by
  have hperm := sorted_perm edits
  have hapart' := hapart.perm hperm.symm
  refine ((sorted_pairwise edits).and hapart').imp_of_mem ?_
  intro a b ha hb hab
  exact Span.precedes_of_before (hwithin b (hperm.mem_iff.mp hb)).ordered hab.1 hab.2

/-! ## what is kept and what is replaced -/

/-- Edits cut the text behind an offset.  The gaps in front of them and the tail are kept, the cuts are
replaced. -/
inductive Cuts (t : Text) : Nat → List Edit → List Text → List Text → Text → Prop where
  | nil {cursor : Nat} {tail : Text} (htail : t.slice? ⟨cursor, t.size⟩ = some tail) :
    Cuts t cursor [] [] [] tail
  | cons {cursor : Nat} {e : Edit} {es : List Edit} {gap cut tail : Text} {gaps cuts : List Text}
    (hgap : t.slice? ⟨cursor, e.span.start⟩ = some gap) (hcut : t.slice? e.span = some cut)
    (hrest : Cuts t e.span.stop es gaps cuts tail) : Cuts t cursor (e :: es) (gap :: gaps) (cut :: cuts) tail

theorem exists_cuts (hwithin : ∀ e ∈ edits, e.Within t)
    (hordered : edits.Pairwise (fun a b => a.span.Precedes b.span)) :
    ∀ cursor, t.isBoundary cursor = true → (∀ e ∈ edits, cursor ≤ e.span.start) →
      ∃ gaps cuts tail, Cuts t cursor edits gaps cuts tail := by
  induction edits with
  | nil =>
    intro cursor hcursor _
    obtain ⟨tail, htail⟩ := Text.slice?_of_boundaries (s := ⟨cursor, t.size⟩)
      (Text.isBoundary_le hcursor) hcursor (Text.isBoundary_size t)
    exact ⟨[], [], tail, .nil htail⟩
  | cons e es ih =>
    intro cursor hcursor hle
    obtain ⟨he, hes⟩ := List.pairwise_cons.mp hordered
    obtain ⟨hfit, hfits⟩ := List.forall_mem_cons.mp hwithin
    obtain ⟨gap, hgap⟩ := Text.slice?_of_boundaries (s := ⟨cursor, e.span.start⟩)
      (hle e List.mem_cons_self) hcursor hfit.boundary.1
    obtain ⟨cut, hcut⟩ := Text.slice?_of_boundaries hfit.ordered hfit.boundary.1 hfit.boundary.2
    obtain ⟨gaps, cuts, tail, hrest⟩ := ih hfits hes e.span.stop hfit.boundary.2 he
    exact ⟨gap :: gaps, cut :: cuts, tail, .cons hgap hcut hrest⟩

theorem Cuts.splice_eq {cursor : Nat} {gaps cuts : List Text} {tail : Text}
    (h : Cuts t cursor edits gaps cuts tail) :
    splice t cursor edits = .ok (Text.woven gaps (edits.map (·.replacement)) ++ tail) := by
  induction h with
  | nil htail =>
    rw [splice, htail]
    rfl
  | cons hgap hcut hrest ih =>
    rw [splice, hgap, ih, List.map_cons, Text.woven_cons]
    exact congrArg Except.ok (List.append_assoc ..).symm

/-! ## the checks -/

theorem check_eq_ok {e : Edit} : check t e = .ok () ↔ e.Within t := by
  rw [check]
  constructor
  · intro h
    split at h
    next => cases h
    next hbounds =>
      split at h
      next hboundary => exact ⟨by omega, by omega, by simpa using hboundary⟩
      next => cases h
  · intro h
    have hordered := h.ordered
    have hinside := h.inside
    rw [if_neg (by omega), h.boundary.1, h.boundary.2]
    rfl

theorem checkEach_eq_ok : checkEach t edits = .ok () ↔ ∀ e ∈ edits, e.Within t := by
  induction edits with
  | nil => exact ⟨fun _ _ he => absurd he List.not_mem_nil, fun _ => rfl⟩
  | cons e es ih =>
    rw [checkEach, List.forall_mem_cons, ← ih, ← check_eq_ok]
    cases check t e with
    | ok _ => exact (and_iff_right rfl).symm
    | error _ => exact ⟨fun h => (nomatch h), fun h => (nomatch h.1)⟩

theorem checkPairs_of_apart (h : Apart edits) : checkPairs edits = .ok () := by
  induction edits with
  | nil => rfl
  | cons a es ih =>
    obtain ⟨ha, hes⟩ := List.pairwise_cons.mp h
    cases es with
    | nil => rfl
    | cons b es =>
      rw [checkPairs, ha b List.mem_cons_self, if_neg Bool.false_ne_true]
      exact ih hes

theorem applyAll_of_checks (heach : checkEach t (sorted edits) = .ok ())
    (hpairs : checkPairs (sorted edits) = .ok ()) : applyAll t edits = splice t 0 (sorted edits) := by
  rw [applyAll, heach, hpairs]
  rfl

/-- a batch of edits inside the text that do not overlap cuts it, and is applied -/
theorem applyAll_of_within (hwithin : ∀ e ∈ edits, e.Within t) (hapart : Apart edits) :
    ∃ gaps cuts tail, Cuts t 0 (sorted edits) gaps cuts tail ∧
      applyAll t edits = .ok (Text.woven gaps ((sorted edits).map (·.replacement)) ++ tail) := by
  have hperm := sorted_perm edits
  have hsorted : ∀ e ∈ sorted edits, e.Within t := fun e he => hwithin e (hperm.mem_iff.mp he)
  obtain ⟨gaps, cuts, tail, hcuts⟩ := exists_cuts hsorted (sorted_precedes hwithin hapart) 0
    (Text.isBoundary_zero t) (fun _ _ => Nat.zero_le _)
  have hchecks := applyAll_of_checks (checkEach_eq_ok.mpr hsorted)
    (checkPairs_of_apart (hapart.perm hperm.symm))
  exact ⟨gaps, cuts, tail, hcuts, hchecks.trans hcuts.splice_eq⟩

theorem applyAll_of_apart (hfits : ∀ e ∈ edits, e.Fits t) (hapart : Apart edits) :
    ∃ mended, applyAll t edits = .ok mended := by
  obtain ⟨_, _, _, -, hmended⟩ := applyAll_of_within (fun e he => (hfits e he).within) hapart
  exact ⟨_, hmended⟩

theorem applyAll_single {front cut behind replacement : Text} :
    applyAll (front ++ cut ++ behind) [⟨⟨front.size, (front ++ cut).size⟩, replacement⟩]
      = .ok (front ++ replacement ++ behind) := by
  have hsize : (front ++ cut).size = front.size + cut.size := Text.size_append _ _
  have hwithin : Within (front ++ cut ++ behind) ⟨⟨front.size, (front ++ cut).size⟩, replacement⟩ := by
    refine ⟨by show front.size ≤ (front ++ cut).size; omega, ?_, Text.isBoundary_iff.mpr ?_,
      Text.isBoundary_iff.mpr ?_⟩
    · rw [Text.size_append (front ++ cut)]
      exact Nat.le_add_right _ _
    · exact ⟨front, cut ++ behind, List.append_assoc _ _ _, rfl⟩
    · exact ⟨front ++ cut, behind, rfl, rfl⟩
  have hgap : (front ++ cut ++ behind).slice? ⟨0, front.size⟩ = some front :=
    Text.slice?_eq_some.mpr ⟨[], cut ++ behind, by simp, rfl, (Nat.zero_add _).symm⟩
  have hcut : (front ++ cut ++ behind).slice? ⟨front.size, (front ++ cut).size⟩ = some cut :=
    Text.slice?_eq_some.mpr ⟨front, behind, rfl, rfl, hsize⟩
  have htail : (front ++ cut ++ behind).slice? ⟨(front ++ cut).size, (front ++ cut ++ behind).size⟩
      = some behind :=
    Text.slice?_eq_some.mpr ⟨front ++ cut, [], by simp, rfl, Text.size_append _ _⟩
  rw [applyAll_of_checks (checkEach_eq_ok.mpr (by simpa using hwithin)) rfl, sorted_singleton]
  have hsplice := (Cuts.cons (e := ⟨_, replacement⟩) hgap hcut (.nil htail)).splice_eq
  simpa [Text.woven] using hsplice

end Edit

end Collate
