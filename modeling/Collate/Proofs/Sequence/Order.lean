import Collate.Sequence.Order

/-!
# Canonical order

The order of a policy is total and transitive, so the canonical permutation arranges the entries in
that order, and it is the identity exactly when they stand in it already.

* `Policy.arranged`           the entries in the order of a policy;
* `Policy.arranged_perm`      every entry once;
* `Policy.map_order`          the canonical permutation gives that arrangement;
* `Policy.isIdentity_order`   the permutation moves nothing iff the entries are in order.
-/

namespace Collate

namespace Text

theorem before_total (t u : Text) : t.before u = true ∨ u.before t = true := by
  induction t generalizing u with
  | nil => exact .inl (by simp [before])
  | cons c cs ih =>
    cases u with
    | nil => exact .inr (by simp [before])
    | cons d ds =>
      by_cases hcd : c = d
      · subst hcd
        simpa [before] using ih ds
      · have hne : c.toNat ≠ d.toNat := fun h => hcd (Char.ext (UInt32.toNat_inj.mp h))
        have hdc : ¬ d = c := fun h => hcd h.symm
        simp only [before, if_neg hcd, if_neg hdc, decide_eq_true_eq]
        omega

theorem before_antisymm {t u : Text} (htu : t.before u = true) (hut : u.before t = true) :
    t = u := by
  induction t generalizing u with
  | nil =>
    cases u with
    | nil => rfl
    | cons d ds => simp [before] at hut
  | cons c cs ih =>
    cases u with
    | nil => simp [before] at htu
    | cons d ds =>
      by_cases hcd : c = d
      · subst hcd
        rw [before, if_pos rfl] at htu hut
        rw [ih htu hut]
      · rw [before, if_neg hcd, decide_eq_true_eq] at htu
        rw [before, if_neg (Ne.symm hcd), decide_eq_true_eq] at hut
        omega

theorem before_trans {t u v : Text} (htu : t.before u = true) (huv : u.before v = true) :
    t.before v = true := by
  induction t generalizing u v with
  | nil => simp [before]
  | cons a as ih =>
    cases u with
    | nil => simp [before] at htu
    | cons b bs =>
      cases v with
      | nil => simp [before] at huv
      | cons c cs =>
        simp only [before] at htu huv ⊢
        by_cases hab : a = b
        · subst hab
          rw [if_pos rfl] at htu
          by_cases hac : a = c
          · subst hac
            rw [if_pos rfl] at huv ⊢
            exact ih htu huv
          · rwa [if_neg hac] at huv ⊢
        · rw [if_neg hab, decide_eq_true_eq] at htu
          have hbc : b.toNat ≤ c.toNat := by
            by_cases hbc : b = c
            · exact Nat.le_of_eq (congrArg Char.toNat hbc)
            · rw [if_neg hbc, decide_eq_true_eq] at huv
              exact Nat.le_of_lt huv
          have hac : ¬ a = c := by
            rintro rfl
            omega
          rw [if_neg hac, decide_eq_true_eq]
          omega

end Text

namespace Policy
variable {p : Policy} {entries : List Entry}

theorem le_total (p : Policy) (a b : Entry) : p.le a b || p.le b a := by
  have hkeys := Text.before_total a.key b.key
  unfold le
  cases p.shorthandsFirst <;> cases a.shorthand <;> cases b.shorthand <;> simp [hkeys]

theorem le_trans (p : Policy) (a b c : Entry) (hab : p.le a b) (hbc : p.le b c) : p.le a c := by
  have hkeys := @Text.before_trans a.key b.key c.key
  revert hab hbc
  unfold le
  cases p.shorthandsFirst <;> cases a.shorthand <;> cases b.shorthand <;> cases c.shorthand <;>
    simp_all

def arranged (p : Policy) (entries : List Entry) : List Entry :=
  (sortBy (fun a b => p.le a.1 b.1) entries.zipIdx).map (·.1)

theorem arranged_perm (p : Policy) (entries : List Entry) : (p.arranged entries).Perm entries := by
  have hperm : (p.arranged entries).Perm (entries.zipIdx.map (·.1)) := (sortBy_perm _).map _
  rwa [List.zipIdx_map_fst] at hperm

theorem arranged_pairwise (p : Policy) (entries : List Entry) :
    (p.arranged entries).Pairwise (p.le · ·) := by
  refine List.pairwise_map.mpr (sortBy_pairwise ?_ ?_ _)
  · exact fun a b => p.le_total a.1 b.1
  · exact fun a b c => p.le_trans a.1 b.1 c.1

theorem map_order (p : Policy) (entries : List Entry) :
    (p.order entries).map (fun index => entries[index]?) = (p.arranged entries).map some := by
  rw [order, arranged, List.map_map, List.map_map]
  refine List.map_congr_left ?_
  rintro ⟨entry, index⟩ hmem
  have hzip := (sortBy_perm _).mem_iff.mp hmem
  exact (List.mem_zipIdx_iff_getElem?.mp hzip)

theorem order_perm (p : Policy) (entries : List Entry) :
    (p.order entries).Perm (List.range entries.length) := by
  have hperm : (p.order entries).Perm (entries.zipIdx.map (·.2)) := (sortBy_perm _).map _
  rwa [List.zipIdx_map_snd, ← List.range_eq_range'] at hperm

theorem order_length (p : Policy) (entries : List Entry) :
    (p.order entries).length = entries.length := by
  rw [(p.order_perm entries).length_eq, List.length_range]

theorem range_map_getElem? (entries : List Entry) :
    (List.range entries.length).map (fun index => entries[index]?) = entries.map some := by
  refine List.ext_getElem (by simp) ?_
  intro i h₁ h₂
  simp at h₁ ⊢

theorem isIdentity_order (p : Policy) (entries : List Entry) :
    isIdentity (p.order entries) = true ↔ entries.Pairwise (p.le · ·) := by
  rw [isIdentity, beq_iff_eq, order_length]
  constructor
  · intro h
    have hmap := p.map_order entries
    rw [h, range_map_getElem?] at hmap
    have heq : entries = p.arranged entries :=
      (List.map_inj_right (fun _ _ => Option.some.inj)).mp hmap
    rw [heq]
    exact p.arranged_pairwise entries
  · intro h
    have hzip : entries.zipIdx.Pairwise (fun a b => p.le a.1 b.1 = true) := by
      rw [← List.zipIdx_map_fst 0 entries] at h
      exact List.pairwise_map.mp h
    rw [order, sortBy_eq_self _ hzip, List.zipIdx_map_snd, List.range_eq_range']

end Policy

theorem hasDuplicates_eq_false (keys : List Text) : hasDuplicates keys = false ↔ keys.Nodup := by
  induction keys with
  | nil => simp [hasDuplicates]
  | cons key keys ih => simp [hasDuplicates, ih]

end Collate
