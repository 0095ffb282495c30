/-!
# Stable sorting

Sorting by insertion: an element goes in front of the first one that it may precede, and the
elements are taken from the last to the first, so equal ones keep their order.

* `insertBy`          one element into a sorted list;
* `sortBy`            a whole list;
* `sortBy_perm`       sorting only rearranges;
* `sortBy_pairwise`   the result is in order;
* `sortBy_eq_self`    a list in order stays as it is.
-/

namespace Collate

/-- the list with `x` in front of the first element that `x` may precede -/
def insertBy {α : Type} (le : α → α → Bool) (x : α) : List α → List α
  | [] => [x]
  | y :: ys => if le x y then x :: y :: ys else y :: insertBy le x ys

/-- the elements in order, equal ones as they stood -/
def sortBy {α : Type} (le : α → α → Bool) : List α → List α
  | [] => []
  | x :: xs => insertBy le x (sortBy le xs)

section
variable {α : Type} {le : α → α → Bool}

theorem insertBy_perm (x : α) (xs : List α) : (insertBy le x xs).Perm (x :: xs) := by
  induction xs with
  | nil => exact List.Perm.refl _
  | cons y ys ih =>
    rw [insertBy]
    split
    · exact List.Perm.refl _
    · exact (ih.cons y).trans (List.Perm.swap x y ys)

theorem sortBy_perm (xs : List α) : (sortBy le xs).Perm xs := by
  induction xs with
  | nil => exact List.Perm.refl _
  | cons x xs ih => exact (insertBy_perm x _).trans (ih.cons x)

theorem insertBy_pairwise (total : ∀ a b, le a b || le b a)
    (trans : ∀ a b c, le a b → le b c → le a c) (x : α) (xs : List α)
    (h : xs.Pairwise (le · ·)) : (insertBy le x xs).Pairwise (le · ·) := by
  induction xs with
  | nil => simp [insertBy]
  | cons y ys ih =>
    rw [insertBy]
    obtain ⟨hy, hys⟩ := List.pairwise_cons.mp h
    split
    next hxy =>
      refine List.pairwise_cons.mpr ⟨fun z hz => ?_, h⟩
      rcases List.mem_cons.mp hz with rfl | hz
      · exact hxy
      · exact trans x y z hxy (hy z hz)
    next hxy =>
      refine List.pairwise_cons.mpr ⟨fun z hz => ?_, ih hys⟩
      rcases List.mem_cons.mp ((insertBy_perm x ys).mem_iff.mp hz) with rfl | hz
      · have := total z y
        simp_all
      · exact hy z hz

theorem sortBy_pairwise (total : ∀ a b, le a b || le b a)
    (trans : ∀ a b c, le a b → le b c → le a c) (xs : List α) :
    (sortBy le xs).Pairwise (le · ·) := by
  induction xs with
  | nil => exact List.Pairwise.nil
  | cons x xs ih => exact insertBy_pairwise total trans x _ ih

/-- a list in order stays as it is -/
theorem sortBy_eq_self (xs : List α) (h : xs.Pairwise (le · ·)) : sortBy le xs = xs := by
  induction xs with
  | nil => rfl
  | cons x xs ih =>
    obtain ⟨hx, hxs⟩ := List.pairwise_cons.mp h
    rw [sortBy, ih hxs]
    cases xs with
    | nil => rfl
    | cons y ys => simp [insertBy, hx y]

end

end Collate
