import Collate.Proofs.Document.Placed

/-!
# Ancestors

In a forest parents have larger numbers than their children, so the chain of parents ends before
the bound on its length does, and every number with a property has an outermost ancestor with it.
Two numbers of a placed table are nested or apart.

* `NodeTable.ancestors_of_parent`    the parent, and then the ancestors of the parent;
* `NodeTable.mem_ancestors_of_below` what is below a number has it among its ancestors;
* `NodeTable.exists_outermost`       the outermost number with a property;
* `NodeTable.Placed.nested_or_apart` along the walk, one number is around the next or in front;
* `NodeTable.Placed.nested_or_apart_of_ne` the same of any two numbers;
* `NodeTable.Placed.nested_of_start` of two that begin at one offset, one is around the other.
-/

namespace Collate

namespace NodeTable
variable {table : NodeTable}

@[simp]
theorem chain_none (table : NodeTable) (length : Nat) : table.chain length none = [] := by
  cases length <;> rfl

theorem chain_eq_chain (h : Grounded table) (k : Nat) :
    ∀ id m n, id < table.size → table.size - id ≤ k → table.size - id ≤ m → table.size - id ≤ n →
      table.chain m (some id) = table.chain n (some id) := by
  induction k with
  | zero =>
    intro id m n hid hk _ _
    omega
  | succ k ih =>
    intro id m n hid hk hm hn
    obtain ⟨m, rfl⟩ : ∃ m', m = m' + 1 := ⟨m - 1, by omega⟩
    obtain ⟨n, rfl⟩ : ∃ n', n = n' + 1 := ⟨n - 1, by omega⟩
    rw [chain, chain]
    cases hp : table.parent id with
    | none => rw [chain_none, chain_none]
    | some parent =>
      obtain ⟨hlt, hsize⟩ := h.child_lt_size hp
      rw [ih parent m n hsize (by omega) (by omega) (by omega)]

theorem ancestors_of_no_parent {id : Nat} (h : table.parent id = none) :
    table.ancestors id = [] := by
  rw [ancestors, h, chain_none]

theorem ancestors_of_parent (h : Grounded table) {id parent : Nat}
    (hp : table.parent id = some parent) :
    table.ancestors id = parent :: table.ancestors parent := by
  obtain ⟨hlt, hsize⟩ := h.child_lt_size hp
  have hstep : table.chain (table.size + 1) (some parent) = parent :: table.ancestors parent := rfl
  rw [ancestors, hp, ← hstep]
  exact chain_eq_chain h (table.size - parent) parent _ _ hsize (Nat.le_refl _) (by omega) (by omega)

/-- what holds of a number if it holds of its parent holds of all numbers -/
theorem parent_induction (h : Grounded table) {P : Nat → Prop}
    (hnone : ∀ id, table.parent id = none → P id)
    (hsome : ∀ id parent, table.parent id = some parent → P parent → P id) (id : Nat) : P id := by
  generalize hn : table.size - id = n
  induction n using Nat.strongRecOn generalizing id with
  | ind n ih =>
    cases hp : table.parent id with
    | none => exact hnone id hp
    | some parent =>
      obtain ⟨hlt, hsize⟩ := h.child_lt_size hp
      exact hsome id parent hp (ih _ (by omega) parent rfl)

theorem lt_of_mem_ancestors (h : Grounded table) {a : Nat} (id : Nat) :
    a ∈ table.ancestors id → id < a ∧ a < table.size := by
  refine parent_induction h (P := fun id => a ∈ table.ancestors id → id < a ∧ a < table.size) ?_ ?_ id
  · intro id hp ha
    rw [ancestors_of_no_parent hp] at ha
    exact nomatch ha
  · intro id parent hp ih ha
    have hlt := h.child_lt_size hp
    rw [ancestors_of_parent h hp] at ha
    rcases List.mem_cons.mp ha with rfl | ha
    · exact hlt
    · have := ih ha
      omega

theorem mem_ancestors_trans (h : Grounded table) {a b : Nat} (hab : a ∈ table.ancestors b)
    (id : Nat) : b ∈ table.ancestors id → a ∈ table.ancestors id := by
  refine parent_induction h (P := fun id => b ∈ table.ancestors id → a ∈ table.ancestors id) ?_ ?_ id
  · intro id hp hb
    rw [ancestors_of_no_parent hp] at hb
    exact nomatch hb
  · intro id parent hp ih hb
    rw [ancestors_of_parent h hp] at hb ⊢
    rcases List.mem_cons.mp hb with rfl | hb
    · exact List.mem_cons_of_mem _ hab
    · exact List.mem_cons_of_mem _ (ih hb)

/-- what is below a number, other than itself, has it among its ancestors -/
theorem mem_ancestors_of_below (h : Unshared table) {top : Nat} (htop : top < table.size)
    (id : Nat) : id ∈ table.preorder top → id ≠ top → top ∈ table.ancestors id := by
  refine parent_induction h.toGrounded
    (P := fun id => id ∈ table.preorder top → id ≠ top → top ∈ table.ancestors id) ?_ ?_ id
  · intro id hp hid hne
    obtain ⟨parent, -, hp'⟩ := parent_mem_preorder h top htop hid hne
    rw [hp] at hp'
    exact nomatch hp'
  · intro id parent hp ih hid hne
    obtain ⟨parent', hbelow, hp'⟩ := parent_mem_preorder h top htop hid hne
    obtain rfl : parent = parent' := Option.some.inj (hp.symm.trans hp')
    rw [ancestors_of_parent h.toGrounded hp]
    by_cases heq : parent = top
    · exact heq ▸ List.mem_cons_self
    · exact List.mem_cons_of_mem _ (ih hbelow heq)

/-- what has a number among its ancestors is below one of its children -/
theorem below_child_of_mem_ancestors (h : Grounded table) {top : Nat} (id : Nat) :
    top ∈ table.ancestors id → ∃ child ∈ (table.node top).children, id ∈ table.preorder child := by
  refine parent_induction h (P := fun id => top ∈ table.ancestors id →
    ∃ child ∈ (table.node top).children, id ∈ table.preorder child) ?_ ?_ id
  · intro id hp htop
    rw [ancestors_of_no_parent hp] at htop
    exact nomatch htop
  · intro id parent hp ih htop
    obtain ⟨hparent, hmem⟩ := h.child_of_parent id parent hp
    have hlt := h.child_lt parent hparent id hmem
    rw [ancestors_of_parent h hp] at htop
    rcases List.mem_cons.mp htop with rfl | htop
    · exact ⟨id, hmem, self_mem_preorder h (by omega)⟩
    · obtain ⟨child, hchild, hbelow⟩ := ih htop
      have htopLt := (lt_of_mem_ancestors h parent htop).2
      have hchildLt := h.child_lt top htopLt child hchild
      exact ⟨child, hchild, mem_preorder_of_parent h hp child (by omega) hbelow⟩

/-- a number with a property has an outermost one: itself or an ancestor, without a further one -/
theorem exists_outermost (h : Grounded table) (P : Nat → Prop) (id : Nat) :
    P id → ∃ top, (top = id ∨ top ∈ table.ancestors id) ∧ P top ∧
      ∀ a ∈ table.ancestors top, ¬ P a := by
  generalize hn : table.size - id = n
  induction n using Nat.strongRecOn generalizing id with
  | ind n ih =>
    intro hid
    by_cases hmore : ∃ a ∈ table.ancestors id, P a
    · obtain ⟨a, ha, hPa⟩ := hmore
      have hlt := lt_of_mem_ancestors h id ha
      obtain ⟨top, htop, hP⟩ := ih _ (by omega) a rfl hPa
      refine ⟨top, .inr ?_, hP⟩
      rcases htop with rfl | htop
      · exact ha
      · exact mem_ancestors_trans h htop id ha
    · exact ⟨id, .inl rfl, hid, fun a ha hPa => hmore ⟨a, ha, hPa⟩⟩

/-- along the walk, one number is around the next or lies in front of it -/
theorem Placed.nested_or_apart {t : Text} {root : Nat} (h : Placed t table root) {id : Nat}
    (hid : id < table.size) :
    (table.preorder id).Pairwise
      (fun x y => x ∈ table.ancestors y ∨ (table.span x).Precedes (table.span y)) := by
  refine preorder_pairwise h.forest.grounded ?_ ?_ id hid
  · intro id hid child hchild x hx
    have hlt := h.forest.child_lt id hid child hchild
    have hle := le_of_mem_preorder h.forest.grounded child (by omega) hx
    have hbelow := (mem_preorder h.forest.grounded hid).mpr (.inr ⟨child, hchild, hx⟩)
    exact .inl (mem_ancestors_of_below h.forest.unshared hid x hbelow (by omega))
  · intro id hid
    refine (h.sortedChildren_ordered hid).imp_of_mem ?_
    intro a b ha hb hab x hx y hy
    have ha := (h.child_ne_root hid (mem_sortedChildren.mp ha)).1
    have hb := (h.child_ne_root hid (mem_sortedChildren.mp hb)).1
    have h₁ := h.preorder_contained a ha hx
    have h₂ := h.preorder_contained b hb hy
    refine .inr ?_
    show (table.span x).stop ≤ (table.span y).start
    omega

/-- two numbers are nested, or one lies in front of the other -/
theorem Placed.nested_or_apart_of_ne {t : Text} {root : Nat} (h : Placed t table root) {x y : Nat}
    (hx : x < table.size) (hy : y < table.size) (hne : x ≠ y) :
    (x ∈ table.ancestors y ∨ (table.span x).Precedes (table.span y)) ∨
      (y ∈ table.ancestors x ∨ (table.span y).Precedes (table.span x)) := by
  have hwalk := h.nested_or_apart h.root_lt
  have hall := List.Pairwise.forall_of_forall_of_flip
    (R := fun x y => x ≠ y → (x ∈ table.ancestors y ∨ (table.span x).Precedes (table.span y)) ∨
      (y ∈ table.ancestors x ∨ (table.span y).Precedes (table.span x)))
    (fun _ _ hx => absurd rfl hx) (hwalk.imp (fun hxy _ => .inl hxy)) (hwalk.imp (fun hxy _ => .inr hxy))
  exact hall (mem_preorder_root h.forest _ x hx (Nat.le_refl _))
    (mem_preorder_root h.forest _ y hy (Nat.le_refl _)) hne

/-- of two numbers that begin at one offset, one is around the other -/
theorem Placed.nested_of_start {t : Text} {root : Nat} (h : Placed t table root) {x y : Nat}
    (hx : x < table.size) (hxne : x ≠ root) (hy : y < table.size) (hyne : y ≠ root) (hne : x ≠ y)
    (hstart : (table.span x).start = (table.span y).start) :
    x ∈ table.ancestors y ∨ y ∈ table.ancestors x := by
  have hxpos := h.nonempty hx hxne
  have hypos := h.nonempty hy hyne
  rcases h.nested_or_apart_of_ne hx hy hne with (hnest | hapart) | (hnest | hapart)
  · exact .inl hnest
  · change (table.span x).stop ≤ (table.span y).start at hapart
    omega
  · exact .inr hnest
  · change (table.span y).stop ≤ (table.span x).start at hapart
    omega

end NodeTable

end Collate
