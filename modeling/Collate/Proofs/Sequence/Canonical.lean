import Mathlib.Data.List.Nodup
import Collate.Proofs.Sequence.Order
import Collate.Proofs.Sorting
import Collate.Proofs.Text.Bytes

/-!
# The canonical order

What the canonical permutation of a list of entries is, said without the sort that finds it.

* `Policy.Precedes`       an entry must stand before another: by its form, if the policy puts
                          abbreviated entries first, and else by the bytes of its key;
* `Policy.Ties`           two entries may stand either way;
* `Policy.Follows`        a permutation of the indices takes every entry before all that it must
                          precede, and ties as they stand;
* `Policy.order_follows`  the canonical permutation does;
* `Policy.canonical_order`  it is the only one, and what it says when all keys differ.
-/

namespace Collate

namespace Policy
variable {p : Policy} {entries : List Entry} {a b : Entry}

/-- `a` must stand before `b` -/
def Precedes (p : Policy) (a b : Entry) : Prop :=
  (p.shorthandsFirst = true ∧ a.shorthand = true ∧ b.shorthand = false) ∨
    (p.shorthandsFirst = true → a.shorthand = b.shorthand) ∧ a.key.bytes < b.key.bytes

/-- neither of two entries must stand before the other -/
def Ties (p : Policy) (a b : Entry) : Prop :=
  (p.shorthandsFirst = true → a.shorthand = b.shorthand) ∧ a.key = b.key

theorem precedes_iff : p.Precedes a b ↔ ¬ p.le b a = true := by
  have hbytes : ¬ b.key.before a.key = true ↔ a.key.bytes < b.key.bytes := by
    rw [Text.before_iff_bytes, List.not_le]
  rw [Precedes, ← hbytes, le]
  cases p.shorthandsFirst <;> cases a.shorthand <;> cases b.shorthand <;> simp

theorem ties_iff : p.Ties a b ↔ p.le a b = true ∧ p.le b a = true := by
  have hkeys : a.key = b.key ↔ a.key.before b.key = true ∧ b.key.before a.key = true := by
    constructor
    · intro heq
      rw [heq, Text.before_iff_bytes]
      exact ⟨List.le_refl _, List.le_refl _⟩
    · exact fun ⟨hab, hba⟩ => Text.before_antisymm hab hba
  rw [Ties, hkeys, le, le]
  cases p.shorthandsFirst <;> cases a.shorthand <;> cases b.shorthand <;> simp

theorem precedes_asymm (hab : p.Precedes a b) : ¬ p.Precedes b a := by
  have htotal := p.le_total a b
  rw [precedes_iff] at hab ⊢
  simp_all

/-- a permutation of the indices that takes every entry before all that it must precede, and ties
as they stand -/
structure Follows (p : Policy) (entries : List Entry) (order : List Nat) : Prop where
  perm : order.Perm (List.range entries.length)
  pairwise : order.Pairwise fun i j => ∀ a b, entries[i]? = some a → entries[j]? = some b →
    p.Precedes a b ∨ p.Ties a b ∧ i < j

theorem zipIdx_pairwise_snd (entries : List Entry) :
    entries.zipIdx.Pairwise (fun a b => a.2 < b.2) := by
  apply List.pairwise_map.mp
  rw [List.zipIdx_map_snd]
  exact List.pairwise_lt_range'

/-- the canonical permutation follows the policy -/
theorem order_follows (p : Policy) (entries : List Entry) :
    p.Follows entries (p.order entries) := by
  refine ⟨p.order_perm entries, List.pairwise_map.mpr ?_⟩
  have hstable := sortBy_stable (fun a b => p.le_total a.1 b.1)
    (fun a b c => p.le_trans a.1 b.1 c.1) (zipIdx_pairwise_snd entries)
  refine hstable.imp_of_mem ?_
  intro x y hx hy hxy a b ha hb
  have hentry {z : Entry × Nat} (hz : z ∈ sortBy (fun a b => p.le a.1 b.1) entries.zipIdx) :
      entries[z.2]? = some z.1 :=
    List.mem_zipIdx_iff_getElem?.mp ((sortBy_perm _).mem_iff.mp hz)
  rw [hentry hx, Option.some_inj] at ha
  rw [hentry hy, Option.some_inj] at hb
  subst ha hb
  by_cases hyx : p.le y.1 x.1 = true
  · exact .inr ⟨ties_iff.mpr ⟨hxy.1, hyx⟩, hxy.2 hyx⟩
  · exact .inl (precedes_iff.mpr hyx)

theorem Follows.eq {order order' : List Nat} (h : p.Follows entries order)
    (h' : p.Follows entries order') : order = order' := by
  refine List.Perm.eq_of_pairwise ?_ h.pairwise h'.pairwise (h.perm.trans h'.perm.symm)
  intro i j hi hj hij hji
  have hentry {k : Nat} (hk : k ∈ List.range entries.length) :
      ∃ a, entries[k]? = some a := ⟨_, List.getElem?_eq_getElem (List.mem_range.mp hk)⟩
  obtain ⟨a, ha⟩ := hentry (h.perm.mem_iff.mp hi)
  obtain ⟨b, hb⟩ := hentry (h'.perm.mem_iff.mp hj)
  rcases hij a b ha hb with hab | ⟨hab, hlt⟩
  · exfalso
    rcases hji b a hb ha with hba | ⟨hba, _⟩
    · exact precedes_asymm hab hba
    · exact precedes_iff.mp hab (ties_iff.mp hba).1
  · exfalso
    rcases hji b a hb ha with hba | ⟨_, hgt⟩
    · exact precedes_iff.mp hba (ties_iff.mp hab).1
    · omega

/-- the permutation moves nothing iff no two neighbours are out of order -/
theorem isIdentity_iff_chain (p : Policy) (entries : List Entry) :
    isIdentity (p.order entries) = true
      ↔ entries.IsChain (fun a b => ¬ p.Precedes b a) := by
  have htrans : Trans (fun a b => p.le a b = true) (fun a b => p.le a b = true)
      (fun a b => p.le a b = true) := ⟨p.le_trans _ _ _⟩
  simp only [precedes_iff, Decidable.not_not]
  rw [isIdentity_order, List.isChain_iff_pairwise]

/-- entries with different keys that may stand either way are one entry -/
theorem eq_of_ties (h : (entries.map (·.key)).Nodup) (ha : a ∈ entries) (hb : b ∈ entries)
    (hties : p.Ties a b) : a = b :=
  List.inj_on_of_nodup_map h ha hb hties.2

/-- with different keys the arrangement depends on the entries alone -/
theorem arranged_eq_of_perm {entries' : List Entry} (h : (entries.map (·.key)).Nodup)
    (hperm : entries'.Perm entries) : p.arranged entries' = p.arranged entries := by
  have harranged := p.arranged_perm entries
  have harranged' := (p.arranged_perm entries').trans hperm
  refine List.Perm.eq_of_pairwise ?_ (p.arranged_pairwise entries') (p.arranged_pairwise entries)
    (harranged'.trans harranged.symm)
  intro a b ha hb hab hba
  exact eq_of_ties h (harranged'.mem_iff.mp ha) (harranged.mem_iff.mp hb)
    (ties_iff.mpr ⟨hab, hba⟩)

/-- every entry must precede all that stand behind it in the order -/
def Strict (p : Policy) (entries : List Entry) (order : List Nat) : Prop :=
  order.Pairwise fun i j => ∀ a b, entries[i]? = some a → entries[j]? = some b → p.Precedes a b

theorem key_ne_of_lt (h : (entries.map (·.key)).Nodup) {i j : Nat} (hij : i < j)
    (ha : entries[i]? = some a) (hb : entries[j]? = some b) : a.key ≠ b.key := by
  intro heq
  obtain ⟨hj, -⟩ := List.getElem?_eq_some_iff.mp hb
  have hne := List.nodup_iff_getElem?_ne_getElem?.mp h i j hij (by rwa [List.length_map])
  rw [List.getElem?_map, List.getElem?_map, ha, hb] at hne
  exact hne (congrArg some heq)

/-- with different keys there are no ties, so an order that follows the policy is strict -/
theorem follows_iff_strict (h : (entries.map (·.key)).Nodup) {order : List Nat}
    (hperm : order.Perm (List.range entries.length)) :
    p.Follows entries order ↔ p.Strict entries order := by
  constructor
  · intro hfollows
    refine hfollows.pairwise.imp ?_
    intro i j hij a b ha hb
    rcases hij a b ha hb with hab | ⟨hab, hlt⟩
    · exact hab
    · exact absurd hab.2 (key_ne_of_lt h hlt ha hb)
  · intro hstrict
    exact ⟨hperm, hstrict.imp fun hij a b ha hb => .inl (hij a b ha hb)⟩

/-- **The canonical order.**  It is the permutation of the indices that follows the policy: keys
compare by their bytes, abbreviated entries come first if the policy wants that, and ties stay as
they are.  It moves nothing iff no two neighbours are out of order, and nothing is left to move in
the sequence that it gives.  When all keys differ it is the only strict permutation, and every
rearrangement of the entries is put into the same sequence. -/
theorem canonical_order (p : Policy) (s : Sequence) :
    (∀ order, p.Follows s.entries order ↔ order = p.order s.entries)
    ∧ (isIdentity (p.order s.entries) = true ↔ s.entries.IsChain fun a b => ¬ p.Precedes b a)
    ∧ (∃ sorted, (p.order s.entries).map (fun index => s.entries[index]?) = sorted.map some
        ∧ isIdentity (p.order sorted) = true)
    ∧ (s.hasDuplicateKeys = false ↔ (s.entries.map (·.key)).Nodup)
    ∧ (s.hasDuplicateKeys = false →
        (∀ order, order.Perm (List.range s.entries.length) →
          (p.Strict s.entries order ↔ order = p.order s.entries))
        ∧ ∀ entries, entries.Perm s.entries →
          (p.order entries).map (fun index => entries[index]?)
            = (p.order s.entries).map (fun index => s.entries[index]?)) := by
  have honly (order : List Nat) : p.Follows s.entries order ↔ order = p.order s.entries := by
    constructor
    · exact fun h => h.eq (p.order_follows s.entries)
    · rintro rfl
      exact p.order_follows s.entries
  have hkeys : s.hasDuplicateKeys = false ↔ (s.entries.map (·.key)).Nodup :=
    hasDuplicates_eq_false _
  have hsorted := (p.isIdentity_order (p.arranged s.entries)).mpr (p.arranged_pairwise s.entries)
  refine ⟨honly, p.isIdentity_iff_chain s.entries,
    ⟨p.arranged s.entries, p.map_order s.entries, hsorted⟩, hkeys, fun hnodup => ⟨?_, ?_⟩⟩
  · intro order hperm
    rw [← follows_iff_strict (hkeys.mp hnodup) hperm]
    exact honly order
  · intro entries hperm
    rw [map_order, map_order, arranged_eq_of_perm (hkeys.mp hnodup) hperm]

end Policy

end Collate
