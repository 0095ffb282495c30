import Collate.Proofs.Sequence.Safe
import Collate.Proofs.Text.Edit

/-!
# What a batch of edits does

The checks of a sorted batch look at neighbours only, and the splice goes through the text once.

* `Edit.applyAll_decides`   a batch is applied exactly when each edit lies inside the text and no two of
  them overlap, and then the text between the edits can be cut;
* `Edit.applyAll_stepwise`  the order of the batch does not matter, and a batch that is applied does what
  its edits do one at a time, the last one first.
-/

namespace Collate

namespace Edit
variable {t : Text} {edits : List Edit}

/-! ## neighbours and pairs -/

theorem checkPairs_eq_ok (hordered : ∀ e ∈ edits, e.span.start ≤ e.span.stop)
    (hsorted : edits.Pairwise (fun a b => a.span.before b.span = true)) :
    checkPairs edits = .ok () ↔ Apart edits := by
  refine ⟨fun h => ?_, checkPairs_of_apart⟩
  induction edits with
  | nil => exact List.Pairwise.nil
  | cons a es ih =>
    obtain ⟨ha, hes⟩ := List.pairwise_cons.mp hsorted
    obtain ⟨-, horderedEs⟩ := List.forall_mem_cons.mp hordered
    cases es with
    | nil => exact List.pairwise_singleton _ _
    | cons b es =>
      rw [checkPairs] at h
      split at h
      next => cases h
      next hab =>
        rw [Bool.not_eq_true] at hab
        refine List.pairwise_cons.mpr ⟨?_, ih horderedEs hes h⟩
        -- what `a` does not overlap next to it, it does not overlap further on
        intro c hc
        rcases List.mem_cons.mp hc with rfl | hc
        · exact hab
        · exact Span.overlaps_false_of_neighbour (horderedEs b List.mem_cons_self)
            (horderedEs c (List.mem_cons_of_mem _ hc)) (ha b List.mem_cons_self)
            ((List.pairwise_cons.mp hes).1 c hc) hab

theorem checkEach_sorted : checkEach t (sorted edits) = .ok () ↔ ∀ e ∈ edits, e.Within t := by
  rw [checkEach_eq_ok]
  exact forall_congr' fun e => imp_congr_left (sorted_perm edits).mem_iff

theorem checkPairs_sorted (hordered : ∀ e ∈ edits, e.span.start ≤ e.span.stop) :
    checkPairs (sorted edits) = .ok () ↔ Apart edits := by
  have hperm := sorted_perm edits
  rw [checkPairs_eq_ok (fun e he => hordered e (hperm.mem_iff.mp he)) (sorted_pairwise edits)]
  exact ⟨fun h => h.perm hperm, fun h => h.perm hperm.symm⟩

theorem applyAll_eq_ok :
    (∃ mended, applyAll t edits = .ok mended) ↔ (∀ e ∈ edits, e.Within t) ∧ Apart edits := by
  constructor
  · rintro ⟨mended, h⟩
    rw [applyAll] at h
    obtain ⟨_, heach, h⟩ := bind_eq_ok h
    obtain ⟨_, hpairs, -⟩ := bind_eq_ok h
    have hwithin := checkEach_sorted.mp heach
    exact ⟨hwithin, (checkPairs_sorted fun e he => (hwithin e he).ordered).mp hpairs⟩
  · rintro ⟨hwithin, hapart⟩
    obtain ⟨_, _, _, -, hmended⟩ := applyAll_of_within hwithin hapart
    exact ⟨_, hmended⟩

theorem apart_iff : Apart edits ↔
    ∀ i j : Fin edits.length, i ≠ j → edits[i].span.overlaps edits[j].span = false := by
  rw [Apart, List.pairwise_iff_getElem]
  constructor
  · intro h i j hij
    rcases Nat.lt_or_gt_of_ne (Fin.val_ne_of_ne hij) with hlt | hgt
    · exact h i j i.isLt j.isLt hlt
    · exact (Span.overlaps_comm _ _).trans (h j i j.isLt i.isLt hgt)
  · intro h i j hi hj hij
    exact h ⟨i, hi⟩ ⟨j, hj⟩ (Fin.ne_of_val_ne (Nat.ne_of_lt hij))

/-! ## faults -/

theorem checkEach_ne_gap (s : Span) : checkEach t edits ≠ .error (.gap s) := by
  induction edits with
  | nil =>
    intro h
    cases h
  | cons e es ih =>
    rw [checkEach, check]
    split
    next =>
      intro h
      cases h
    next =>
      split
      next => exact ih
      next =>
        intro h
        cases h

theorem checkPairs_ne_gap (s : Span) : checkPairs edits ≠ .error (.gap s) := by
  fun_induction checkPairs edits with
  | case1 a b es hab =>
    intro h
    cases h
  | case2 a b es hab ih => exact ih
  | case3 =>
    intro h
    cases h

/-- the checks refuse every batch that could not be spliced -/
theorem applyAll_ne_gap (s : Span) : applyAll t edits ≠ .error (.gap s) := by
  intro h
  rw [applyAll] at h
  cases heach : checkEach t (sorted edits) with
  | error e =>
    rw [heach] at h
    exact checkEach_ne_gap s (heach.trans (congrArg Except.error (Except.error.inj h)))
  | ok _ =>
    cases hpairs : checkPairs (sorted edits) with
    | error e =>
      rw [heach, hpairs] at h
      exact checkPairs_ne_gap s (hpairs.trans (congrArg Except.error (Except.error.inj h)))
    | ok _ =>
      have hwithin := checkEach_sorted.mp heach
      have hapart := (checkPairs_sorted fun e he => (hwithin e he).ordered).mp hpairs
      obtain ⟨gaps, cuts, tail, -, hmended⟩ := applyAll_of_within hwithin hapart
      rw [applyAll, heach, hpairs] at hmended
      rw [heach, hpairs] at h
      cases hmended.symm.trans h

/-- A batch is applied exactly when each of its edits lies inside the text, with both ends on character
boundaries, and no two edits at different places of the list overlap.  Comparing neighbours of the sorted
batch decides the second part.  When a batch is applied, every edit ends before the next one begins, so
all that stands between the edits can be cut; the fault that it cannot is never met. -/
theorem applyAll_decides (t : Text) (edits : List Edit) :
    ((∃ mended, applyAll t edits = .ok mended) ↔
      (∀ e ∈ edits, e.span.start ≤ e.span.stop ∧ e.span.stop ≤ t.size ∧
        t.isBoundary e.span.start = true ∧ t.isBoundary e.span.stop = true) ∧
      ∀ i j : Fin edits.length, i ≠ j → edits[i].span.overlaps edits[j].span = false) ∧
    ((∀ e ∈ edits, e.span.start ≤ e.span.stop) →
      (checkPairs (sorted edits) = .ok () ↔
        ∀ i j : Fin edits.length, i ≠ j → edits[i].span.overlaps edits[j].span = false)) ∧
    (∀ mended, applyAll t edits = .ok mended →
      (sorted edits).Pairwise (fun a b => a.span.stop ≤ b.span.start) ∧
      ∃ gaps cuts tail, Cuts t 0 (sorted edits) gaps cuts tail) ∧
    ∀ s, applyAll t edits ≠ .error (.gap s) := by
  refine ⟨?_, fun hordered => ?_, fun mended h => ?_, applyAll_ne_gap⟩
  · rw [applyAll_eq_ok, apart_iff]
    refine and_congr_left fun _ => forall₂_congr fun e _ => ?_
    exact ⟨fun h => ⟨h.ordered, h.inside, h.boundary⟩, fun h => ⟨h.1, h.2.1, h.2.2⟩⟩
  · rw [checkPairs_sorted hordered, apart_iff]
  · obtain ⟨hwithin, hapart⟩ := applyAll_eq_ok.mp ⟨mended, h⟩
    obtain ⟨gaps, cuts, tail, hcuts, -⟩ := applyAll_of_within hwithin hapart
    exact ⟨sorted_precedes hwithin hapart, gaps, cuts, tail, hcuts⟩

/-- Insertions at both edges of a replaced range are applied with it, one inside the range is refused. -/
theorem applyAll_decides_insertions :
    (∃ mended, applyAll ['a', 'b', 'c', 'd'] [⟨⟨1, 3⟩, ['X']⟩, ⟨⟨3, 3⟩, ['>']⟩, ⟨⟨1, 1⟩, ['<']⟩] = .ok mended) ∧
    ¬ ∃ mended, applyAll ['a', 'b', 'c', 'd'] [⟨⟨1, 3⟩, ['X']⟩, ⟨⟨2, 2⟩, ['!']⟩] = .ok mended := by
  refine ⟨(applyAll_decides _ _).1.mpr (by decide), fun h => ?_⟩
  exact absurd ((applyAll_decides _ _).1.mp h).2 (by decide)

/-! ## the order of the batch -/

theorem checks_congr {edits' : List Edit} (h : edits.map (·.span) = edits'.map (·.span)) :
    checkEach t edits = checkEach t edits' ∧ checkPairs edits = checkPairs edits' := by
  induction edits generalizing edits' with
  | nil =>
    obtain rfl := List.map_eq_nil_iff.mp h.symm
    exact ⟨rfl, rfl⟩
  | cons e es ih =>
    obtain ⟨e', es', rfl, he, hes⟩ := List.map_eq_cons_iff.mp h.symm
    obtain ⟨heach, hpairs⟩ := ih hes.symm
    have hcheck : check t e = check t e' := by rw [check, check, he]
    refine ⟨by rw [checkEach, checkEach, hcheck, heach], ?_⟩
    cases es with
    | nil =>
      obtain rfl := List.map_eq_nil_iff.mp hes
      rfl
    | cons b es =>
      obtain ⟨b', es', rfl, hb, -⟩ := List.map_eq_cons_iff.mp hes
      rw [checkPairs, checkPairs, he, hb, hpairs]

theorem Apart.eq_of_span_eq (hapart : Apart edits) (hordered : ∀ e ∈ edits, e.span.start ≤ e.span.stop)
    {a b : Edit} (ha : a ∈ edits) (hb : b ∈ edits) (h : a.span = b.span) : a = b := by
  obtain ⟨i, hi, rfl⟩ := List.getElem_of_mem ha
  obtain ⟨j, hj, rfl⟩ := List.getElem_of_mem hb
  by_cases hij : i = j
  · subst hij
    rfl
  · have hfalse : edits[i].span.overlaps edits[j].span = false :=
      apart_iff.mp hapart ⟨i, hi⟩ ⟨j, hj⟩ (Fin.ne_of_val_ne hij)
    rw [← h, Span.overlaps_self (hordered _ ha)] at hfalse
    cases hfalse

/-- there is one way to sort edits that do not overlap -/
theorem eq_sorted (hordered : ∀ e ∈ edits, e.span.start ≤ e.span.stop) (hapart : Apart edits)
    {batch : List Edit} (hperm : batch.Perm edits)
    (hbatch : batch.Pairwise (fun a b => a.span.before b.span = true)) : batch = sorted edits := by
  refine (hperm.trans (sorted_perm edits).symm).eq_of_pairwise (fun a b ha hb hab hba => ?_) hbatch
    (sorted_pairwise edits)
  exact hapart.eq_of_span_eq hordered (hperm.mem_iff.mp ha) ((sorted_perm edits).mem_iff.mp hb)
    (Span.before_antisymm hab hba)

/-- ties in the order of a batch have no part in what it does -/
theorem applyAll_perm {edits' : List Edit} (h : edits.Perm edits') : applyAll t edits = applyAll t edits' := by
  have hperm : (sorted edits).Perm (sorted edits') :=
    ((sorted_perm edits).trans h).trans (sorted_perm edits').symm
  have hspans : (sorted edits).map (·.span) = (sorted edits').map (·.span) := by
    apply (hperm.map _).eq_of_pairwise (fun a b _ _ => Span.before_antisymm)
    · exact List.pairwise_map.mpr (sorted_pairwise edits)
    · exact List.pairwise_map.mpr (sorted_pairwise edits')
  obtain ⟨heach, hpairs⟩ := checks_congr (t := t) hspans
  rw [applyAll, applyAll, ← heach, ← hpairs]
  cases heach : checkEach t (sorted edits) with
  | error e => rfl
  | ok _ =>
    cases hpairs : checkPairs (sorted edits) with
    | error e => rfl
    | ok _ =>
      -- no two spans are equal, so the sorted batch is the same
      have hordered : ∀ e ∈ edits, e.span.start ≤ e.span.stop :=
        fun e he => (checkEach_sorted.mp heach e he).ordered
      have hapart := (checkPairs_sorted hordered).mp hpairs
      rw [eq_sorted hordered hapart ((sorted_perm edits').trans h.symm) (sorted_pairwise edits')]

/-! ## one edit at a time -/

section
variable {cursor : Nat} {gaps cuts : List Text} {tail : Text}

/-- the cuts and what is kept are the whole text from the offset on -/
theorem Cuts.drop?_eq (h : Cuts t cursor edits gaps cuts tail) :
    t.drop? cursor = some (Text.woven gaps cuts ++ tail) := by
  induction h with
  | @nil cursor tail htail =>
    have hend : t.drop? t.size = some [] := Text.drop?_eq_some.mpr ⟨t, by simp, rfl⟩
    have hdrop := Text.drop?_of_slice? htail hend
    rwa [List.append_nil] at hdrop
  | @cons cursor e es gap cut tail gaps cuts hgap hcut hrest ih =>
    have hdrop := Text.drop?_of_slice? hgap (Text.drop?_of_slice? hcut ih)
    rwa [Text.woven_cons, List.append_assoc, List.append_assoc]

/-- edits put in one at a time, the last one first -/
theorem Cuts.foldrM_eq (h : Cuts t cursor edits gaps cuts tail) (front : Text) (hfront : front.size = cursor)
    (ht : t = front ++ (Text.woven gaps cuts ++ tail)) :
    edits.foldrM (fun e u => applyAll u [e]) t
      = .ok (front ++ (Text.woven gaps (edits.map (·.replacement)) ++ tail)) := by
  induction h generalizing front with
  | nil =>
    rw [ht]
    rfl
  | @cons cursor e es gap cut tail gaps cuts hgap hcut hrest ih =>
    have hstart : (front ++ gap).size = e.span.start := by
      rw [Text.size_append, hfront]
      exact (Text.stop_of_slice? hgap).symm
    have hstop : (front ++ gap ++ cut).size = e.span.stop := by
      rw [Text.size_append, hstart]
      exact (Text.stop_of_slice? hcut).symm
    have hlater := ih (front ++ gap ++ cut) hstop (by rw [ht, Text.woven_cons]; simp)
    -- the edits behind this one leave its range where it was
    have hthis := @applyAll_single (front ++ gap) cut (Text.woven gaps (es.map (·.replacement)) ++ tail)
      e.replacement
    rw [hstart, hstop] at hthis
    rw [List.foldrM_cons, hlater]
    refine hthis.trans ?_
    rw [List.map_cons, Text.woven_cons]
    simp

end

/-- The result of a batch does not depend on the order of its list: the same text, or the same fault.  A
batch that is applied gives what its edits give when they are applied one at a time, each as a batch of its
own, the last one in the text first.  The text is cut into the ranges of the edits and the gaps between
them; in the result every gap stands as it was, and every replacement in the place of its range. -/
theorem applyAll_stepwise (t : Text) (edits : List Edit) :
    (∀ edits', edits.Perm edits' → applyAll t edits' = applyAll t edits) ∧
    ∀ mended, applyAll t edits = .ok mended →
      (∀ descending, edits.Perm descending →
        descending.Pairwise (fun a b => b.span.before a.span = true) →
        descending.foldlM (fun u e => applyAll u [e]) t = .ok mended) ∧
      ∃ gaps cuts tail, Cuts t 0 (sorted edits) gaps cuts tail ∧ t = Text.woven gaps cuts ++ tail ∧
        mended = Text.woven gaps ((sorted edits).map (·.replacement)) ++ tail := by
  refine ⟨fun edits' h => (applyAll_perm h).symm, fun mended h => ?_⟩
  obtain ⟨hwithin, hapart⟩ := applyAll_eq_ok.mp ⟨mended, h⟩
  obtain ⟨gaps, cuts, tail, hcuts, hmended⟩ := applyAll_of_within hwithin hapart
  obtain rfl := Except.ok.inj (h.symm.trans hmended)
  have ht : t = Text.woven gaps cuts ++ tail :=
    Option.some.inj ((Text.drop?_zero t).symm.trans hcuts.drop?_eq)
  refine ⟨fun descending hperm hdescending => ?_, gaps, cuts, tail, hcuts, ht, rfl⟩
  have hreverse : descending.reverse = sorted edits :=
    eq_sorted (fun e he => (hwithin e he).ordered) hapart ((List.reverse_perm _).trans hperm.symm)
      (List.pairwise_reverse.mpr hdescending)
  rw [← List.reverse_reverse descending, hreverse, List.foldlM_reverse]
  exact hcuts.foldrM_eq [] rfl ht

/-- An insertion in front of a replaced range and the range, in both orders. -/
theorem applyAll_stepwise_insertion :
    applyAll ['a', 'b', 'c'] [⟨⟨1, 2⟩, ['X', 'Y']⟩, ⟨⟨1, 1⟩, ['<']⟩] = .ok ['a', '<', 'X', 'Y', 'c'] ∧
    [Edit.mk ⟨1, 2⟩ ['X', 'Y'], ⟨⟨1, 1⟩, ['<']⟩].foldlM (fun u e => applyAll u [e]) ['a', 'b', 'c']
      = .ok ['a', '<', 'X', 'Y', 'c'] ∧
    applyAll ['a', 'b', 'c'] [⟨⟨1, 1⟩, ['<']⟩, ⟨⟨1, 2⟩, ['X', 'Y']⟩] = .ok ['a', '<', 'X', 'Y', 'c'] := by
  have h : applyAll ['a', 'b', 'c'] [⟨⟨1, 2⟩, ['X', 'Y']⟩, ⟨⟨1, 1⟩, ['<']⟩] = .ok ['a', '<', 'X', 'Y', 'c'] :=
    eq_ok_of_toOption (by decide)
  obtain ⟨hperm, hsteps⟩ := applyAll_stepwise ['a', 'b', 'c'] [⟨⟨1, 2⟩, ['X', 'Y']⟩, ⟨⟨1, 1⟩, ['<']⟩]
  exact ⟨h, (hsteps _ h).1 _ (.refl _) (by decide), (hperm _ (.swap _ _ _)).trans h⟩

end Edit

end Collate
