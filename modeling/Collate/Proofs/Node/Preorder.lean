import Collate.Proofs.Node.Forest

/-!
# The walk through a table

`NodeTable.preorder` lists a node and everything below it, each once, a parent before its children.
If siblings do not overlap, the starts of the spans never go back.
-/

namespace Collate

namespace NodeTable
variable {table : NodeTable}

theorem sortedChildren_perm (table : NodeTable) (id : Nat) :
    (table.sortedChildren id).Perm (table.node id).children :=
  sortBy_perm _

theorem mem_sortedChildren {id child : Nat} :
    child ∈ table.sortedChildren id ↔ child ∈ (table.node id).children :=
  (sortedChildren_perm table id).mem_iff

/-! ## the nodes below a node -/

theorem below_eq_preorder (h : Grounded table) (depth : Nat) :
    ∀ id < table.size, id < depth → table.below depth id = table.preorder id := by
  induction depth using Nat.strongRecOn with
  | ind depth ih =>
    intro id hid hdepth
    cases depth with
    | zero => omega
    | succ depth =>
      have hflat : (table.sortedChildren id).flatMap (table.below depth)
          = (table.sortedChildren id).flatMap (table.below id) := by
        rw [List.flatMap_def, List.flatMap_def]
        refine congrArg List.flatten (List.map_congr_left ?_)
        intro child hchild
        have hlt := h.child_lt id hid child (mem_sortedChildren.mp hchild)
        rw [ih depth (Nat.lt_succ_self _) child (by omega) (by omega)]
        exact (ih id hdepth child (by omega) hlt).symm
      rw [preorder, below, below, hflat]

theorem preorder_eq (h : Grounded table) {id : Nat} (hid : id < table.size) :
    table.preorder id = id :: (table.sortedChildren id).flatMap table.preorder := by
  rw [preorder, below, List.flatMap_def, List.flatMap_def]
  refine congrArg (id :: List.flatten ·) (List.map_congr_left ?_)
  intro child hchild
  have hlt := h.child_lt id hid child (mem_sortedChildren.mp hchild)
  exact below_eq_preorder h id child (by omega) hlt

theorem mem_preorder (h : Grounded table) {id x : Nat} (hid : id < table.size) :
    x ∈ table.preorder id ↔
      x = id ∨ ∃ child ∈ (table.node id).children, x ∈ table.preorder child := by
  rw [preorder_eq h hid, List.mem_cons, List.mem_flatMap]
  constructor
  · rintro (rfl | ⟨child, hchild, hx⟩)
    · exact .inl rfl
    · exact .inr ⟨child, mem_sortedChildren.mp hchild, hx⟩
  · rintro (rfl | ⟨child, hchild, hx⟩)
    · exact .inl rfl
    · exact .inr ⟨child, mem_sortedChildren.mpr hchild, hx⟩

theorem self_mem_preorder (h : Grounded table) {id : Nat} (hid : id < table.size) :
    id ∈ table.preorder id :=
  (mem_preorder h hid).mpr (.inl rfl)

theorem eq_of_mem_preorder_leaf (h : Grounded table) {id x : Nat} (hid : id < table.size)
    (hnone : (table.node id).children = []) (hx : x ∈ table.preorder id) : x = id := by
  rcases (mem_preorder h hid).mp hx with heq | ⟨child, hchild, -⟩
  · exact heq
  · rw [hnone] at hchild
    exact nomatch hchild

theorem le_of_mem_preorder (h : Grounded table) {x : Nat} (id : Nat) :
    id < table.size → x ∈ table.preorder id → x ≤ id := by
  induction id using Nat.strongRecOn with
  | ind id ih =>
    intro hid hx
    rcases (mem_preorder h hid).mp hx with rfl | ⟨child, hchild, hx⟩
    · exact Nat.le_refl _
    · have hlt := h.child_lt id hid child hchild
      have hle := ih child hlt (by omega) hx
      omega

theorem mem_preorder_of_child (h : Grounded table) {x parent : Nat}
    (hmem : x ∈ (table.node parent).children) (id : Nat) :
    id < table.size → parent ∈ table.preorder id → x ∈ table.preorder id := by
  induction id using Nat.strongRecOn with
  | ind id ih =>
    intro hid hx
    rcases (mem_preorder h hid).mp hx with rfl | ⟨child, hchild, hx⟩
    · have hlt := h.child_lt parent hid x hmem
      exact (mem_preorder h hid).mpr (.inr ⟨x, hmem, self_mem_preorder h (by omega)⟩)
    · have hlt := h.child_lt id hid child hchild
      exact (mem_preorder h hid).mpr (.inr ⟨child, hchild, ih child hlt (by omega) hx⟩)

theorem mem_preorder_of_parent (h : Grounded table) {x parent : Nat}
    (hp : table.parent x = some parent) (id : Nat) (hid : id < table.size)
    (hx : parent ∈ table.preorder id) : x ∈ table.preorder id :=
  mem_preorder_of_child h (h.child_of_parent x parent hp).2 id hid hx

theorem parent_mem_preorder (h : Unshared table) {x : Nat} (id : Nat) :
    id < table.size → x ∈ table.preorder id → x ≠ id →
      ∃ parent ∈ table.preorder id, table.parent x = some parent := by
  have hg := h.toGrounded
  induction id using Nat.strongRecOn with
  | ind id ih =>
    intro hid hx hne
    rcases (mem_preorder hg hid).mp hx with rfl | ⟨child, hchild, hx⟩
    · exact absurd rfl hne
    · have hlt := h.child_lt id hid child hchild
      by_cases hself : x = child
      · subst hself
        exact ⟨id, self_mem_preorder hg hid, h.parent_of_child id hid x hchild⟩
      · obtain ⟨parent, hmem, hp⟩ := ih child hlt (by omega) hx hself
        exact ⟨parent, (mem_preorder hg hid).mpr (.inr ⟨child, hchild, hmem⟩), hp⟩

theorem preorder_disjoint (h : Unshared table) {id a b : Nat} (hid : id < table.size)
    (ha : a ∈ (table.node id).children) (hb : b ∈ (table.node id).children) (hab : a ≠ b) (n : Nat) :
    ∀ x, id - x ≤ n → x ∈ table.preorder a → x ∉ table.preorder b := by
  have halt := h.child_lt id hid a ha
  have hblt := h.child_lt id hid b hb
  have hpa := h.parent_of_child id hid a ha
  have hpb := h.parent_of_child id hid b hb
  induction n with
  | zero =>
    intro x hn hxa _
    have := le_of_mem_preorder h.toGrounded a (by omega) hxa
    omega
  | succ n ih =>
    intro x hn hxa hxb
    by_cases hxA : x = a
    · subst hxA
      -- the parent of the first child is not below the second one
      obtain ⟨parent, hmem, hp⟩ := parent_mem_preorder h b (by omega) hxb hab
      have hle := le_of_mem_preorder h.toGrounded b (by omega) hmem
      rw [hpa] at hp
      have := Option.some.inj hp
      omega
    · obtain ⟨parent, hmem, hp⟩ := parent_mem_preorder h a (by omega) hxa hxA
      by_cases hxB : x = b
      · subst hxB
        have hle := le_of_mem_preorder h.toGrounded a (by omega) hmem
        rw [hpb] at hp
        have := Option.some.inj hp
        omega
      · obtain ⟨parent', hmem', hp'⟩ := parent_mem_preorder h b (by omega) hxb hxB
        have heq : parent' = parent := by
          rw [hp] at hp'
          exact (Option.some.inj hp').symm
        subst heq
        have hlt := (h.child_lt_size hp).1
        exact ih parent' (by omega) hmem hmem'

/-! ## the order of the walk -/

/-- A relation holds along the walk if it holds from a node to all below it, and from all below a
child to all below a later one. -/
theorem preorder_pairwise (h : Grounded table) {R : Nat → Nat → Prop}
    (hdown : ∀ id < table.size, ∀ child ∈ (table.node id).children, ∀ x ∈ table.preorder child, R id x)
    (hacross : ∀ id < table.size, (table.sortedChildren id).Pairwise
      (fun a b => ∀ x ∈ table.preorder a, ∀ y ∈ table.preorder b, R x y)) (id : Nat) :
    id < table.size → (table.preorder id).Pairwise R := by
  induction id using Nat.strongRecOn with
  | ind id ih =>
    intro hid
    rw [preorder_eq h hid, List.pairwise_cons, List.pairwise_flatMap]
    refine ⟨?_, ?_, hacross id hid⟩
    · intro x hx
      obtain ⟨child, hchild, hx⟩ := List.mem_flatMap.mp hx
      exact hdown id hid child (mem_sortedChildren.mp hchild) x hx
    · intro child hchild
      have hlt := h.child_lt id hid child (mem_sortedChildren.mp hchild)
      exact ih child hlt (by omega)

theorem sortedChildren_nodup (h : Unshared table) {id : Nat} (hid : id < table.size) :
    (table.sortedChildren id).Nodup :=
  (sortedChildren_perm table id).nodup_iff.mpr (h.children_nodup id hid)

theorem sortedChildren_apart (h : Unshared table) {id : Nat} (hid : id < table.size) :
    (table.sortedChildren id).Pairwise
      (fun a b => ∀ x ∈ table.preorder a, x ∉ table.preorder b) := by
  refine (sortedChildren_nodup h hid).imp_of_mem ?_
  intro a b ha hb hab x hx
  exact preorder_disjoint h hid (mem_sortedChildren.mp ha) (mem_sortedChildren.mp hb) hab _ x
    (Nat.le_refl _) hx

theorem preorder_nodup (h : Unshared table) {id : Nat} (hid : id < table.size) :
    (table.preorder id).Nodup := by
  refine preorder_pairwise h.toGrounded ?_ ?_ id hid
  · intro id hid child hchild x hx
    have hlt := h.child_lt id hid child hchild
    have hle := le_of_mem_preorder h.toGrounded child (by omega) hx
    omega
  · intro id hid
    refine (sortedChildren_apart h hid).imp ?_
    intro a b hab x hx y hy hxy
    exact hab x hx (hxy ▸ hy)

theorem preorder_parents_first (h : Unshared table) {id : Nat} (hid : id < table.size) :
    (table.preorder id).Pairwise (fun x y => table.parent x ≠ some y) := by
  refine preorder_pairwise h.toGrounded ?_ ?_ id hid
  · intro id hid child hchild x hx hp
    have hlt := h.child_lt id hid child hchild
    have hle := le_of_mem_preorder h.toGrounded child (by omega) hx
    have hlt' := (h.child_lt_size hp).1
    omega
  · intro id hid
    refine (sortedChildren_apart h hid).imp_of_mem ?_
    intro a b _ hb hab x hx y hy hp
    have hlt := h.child_lt id hid b (mem_sortedChildren.mp hb)
    exact hab x hx (mem_preorder_of_parent h.toGrounded hp b (by omega) hy)

theorem mem_preorder_root {root : Nat} (h : Forest table [root]) (n : Nat) :
    ∀ x < table.size, table.size - x ≤ n → x ∈ table.preorder root := by
  have hroot := h.root_lt (List.mem_singleton.mpr rfl)
  induction n with
  | zero =>
    intro x hx hn
    omega
  | succ n ih =>
    intro x hx hn
    cases hp : table.parent x with
    | none =>
      have hmem := (h.root_iff x).mpr ⟨hx, hp⟩
      rw [List.mem_singleton.mp hmem]
      exact self_mem_preorder h.grounded hroot
    | some parent =>
      have hlt := h.grounded.child_lt_size hp
      exact mem_preorder_of_parent h.grounded hp root hroot (ih parent hlt.2 (by omega))

end NodeTable

end Collate
