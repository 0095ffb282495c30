import Collate.Proofs.Node.Ancestors
import Collate.Proofs.Scope.Basic

/-!
# Names in sight of a node

A binding is seen from a node of a document when the scope that it belongs to holds the node as well, and
no scope in between is closed.  Scopes are nested along the parents of a node, so this can be told from the
sets of scopes that hold the two.

* `Document.inner`          the children inside of the scope that a node opens;
* `Document.Holds`          a scope holds a node;
* `Document.InSight`        a name is in sight of a node;
* `Document.holds_parent`   the scopes that hold a node are those of its parent, and perhaps the parent;
* `Document.inSight_iff`    sight in terms of the scopes that hold a binding and a node.
-/

namespace Collate

namespace Document

/-! ## scopes of a document -/

def scope? (d : Document) (id : Nat) : Option (Scope Nat) :=
  (d.node id).scope? d.text d.span (d.span id)

/-- the children that are read outside of the scope that a node opens -/
def outer (d : Document) (id : Nat) : List Nat :=
  match d.scope? id with
  | some scope => scope.outside
  | none => (d.node id).inOrder

def inner (d : Document) (id : Nat) : List Nat :=
  match d.scope? id with
  | some scope => scope.inside
  | none => []

/-- the node opens a scope in which the names around it are not seen -/
def isClosed (d : Document) (id : Nat) : Bool :=
  match d.scope? id with
  | some scope => decide (scope.sight = .closed)
  | none => false

/-- a node is another one or below it -/
def Within (d : Document) (top x : Nat) : Prop :=
  x = top ∨ top ∈ d.ancestors x

/-- the scope that a node opens holds another node -/
def Holds (d : Document) (id x : Nat) : Prop :=
  ∃ child ∈ d.inner id, d.Within child x

/-- the scope holds a node, and all other scopes that do so hold the scope -/
def Innermost (d : Document) (id x : Nat) : Prop :=
  d.Holds id x ∧ ∀ other, d.Holds other x → other = id ∨ d.Holds other id

/-- the node is an assignment of a name that starts before an offset, or a parameter of that name that
ends there or before -/
def Binds (d : Document) (binder : Nat) (name : Text) (offset : Nat) : Prop :=
  (∃ value, d.node binder = .assignment name value ∧ (d.span binder).start < offset) ∨
    ∃ kind fallback, d.node binder = .parameter kind (some name) fallback ∧ (d.span binder).stop ≤ offset

/-- A binding of the name is in sight of a node: the innermost scope that holds the binding holds the node,
and no closed scope nested inside that scope holds it. -/
def InSight (d : Document) (name : Text) (x : Nat) : Prop :=
  ∃ binder id, d.Binds binder name (d.span x).start ∧ d.Innermost id binder ∧ d.Holds id x ∧
    ∀ other, d.isClosed other = true → d.Holds id other → ¬ d.Holds other x

variable {d : Document} {id x top parent child other : Nat}

theorem inOrder_eq (d : Document) (id : Nat) : (d.node id).inOrder = d.outer id ++ d.inner id := by
  unfold outer inner
  cases h : d.scope? id with
  | none => exact (List.append_nil _).symm
  | some scope => exact Node.inOrder_of_scope? h

theorem mem_children_iff : child ∈ (d.node id).children ↔ child ∈ d.outer id ∨ child ∈ d.inner id := by
  rw [← Node.mem_inOrder, inOrder_eq, List.mem_append]

theorem lt_of_mem_children (h : child ∈ (d.node id).children) : id < d.nodes.size := by
  rcases Nat.lt_or_ge id d.nodes.size with hlt | hge
  · exact hlt
  · rw [Document.node, NodeTable.node, NodeTable.row_of_size_le hge] at h
    cases h

namespace Placed
variable (h : d.Placed)
include h

theorem parent_of_child (hchild : child ∈ (d.node id).children) : d.nodes.parent child = some id :=
  (h.table.forest.parent_iff child id).mpr ⟨lt_of_mem_children hchild, hchild⟩

theorem not_inner_of_outer (houter : child ∈ d.outer id) : child ∉ d.inner id := by
  have hid := lt_of_mem_children (mem_children_iff.mpr (.inl houter))
  have hnodup : (d.node id).inOrder.Nodup :=
    (d.node id).inOrder_perm.nodup_iff.mpr (h.table.forest.children_nodup id hid)
  rw [inOrder_eq] at hnodup
  exact fun hinner => (List.nodup_append.mp hnodup).2.2 child houter child hinner rfl

/-! ## nesting -/

theorem within_parent (hp : d.nodes.parent x = some parent) :
    d.Within top x ↔ x = top ∨ d.Within top parent := by
  rw [Within, Document.ancestors, NodeTable.ancestors_of_parent h.table.forest.grounded hp, List.mem_cons, Within]
  exact or_congr_right (or_congr_left eq_comm)

theorem within_trans {a b : Nat} (hab : d.Within a b) (hb : d.Within b x) : d.Within a x := by
  rcases hb with rfl | hb
  · exact hab
  · rcases hab with rfl | hab
    · exact .inr hb
    · exact .inr (NodeTable.mem_ancestors_trans h.table.forest.grounded hab x hb)

theorem le_of_within (hx : d.Within top x) : x ≤ top := by
  rcases hx with rfl | hx
  · exact Nat.le_refl _
  · exact Nat.le_of_lt (NodeTable.lt_of_mem_ancestors h.table.forest.grounded x hx).1

/-- the scopes that hold a node are those that hold its parent, and the parent itself if the node is
inside of its scope -/
theorem holds_parent (hp : d.nodes.parent x = some parent) :
    d.Holds id x ↔ d.Holds id parent ∨ (id = parent ∧ x ∈ d.inner parent) := by
  constructor
  · rintro ⟨child, hchild, hwithin⟩
    rcases (h.within_parent hp).mp hwithin with rfl | hwithin
    · have hp' := h.parent_of_child (mem_children_iff.mpr (.inr hchild))
      obtain rfl := Option.some.inj (hp.symm.trans hp')
      exact .inr ⟨rfl, hchild⟩
    · exact .inl ⟨child, hchild, hwithin⟩
  · rintro (⟨child, hchild, hwithin⟩ | ⟨rfl, hinner⟩)
    · exact ⟨child, hchild, (h.within_parent hp).mpr (.inr hwithin)⟩
    · exact ⟨x, hinner, .inl rfl⟩

theorem holds_mono (hx : d.Within top x) (hholds : d.Holds id top) : d.Holds id x := by
  obtain ⟨child, hchild, hwithin⟩ := hholds
  exact ⟨child, hchild, h.within_trans hwithin hx⟩

theorem mem_ancestors_of_holds (hholds : d.Holds id x) : id ∈ d.ancestors x := by
  obtain ⟨child, hchild, hwithin⟩ := hholds
  have hp := h.parent_of_child (mem_children_iff.mpr (.inr hchild))
  have hparent : id ∈ d.nodes.ancestors child := by
    rw [NodeTable.ancestors_of_parent h.table.forest.grounded hp]
    exact List.mem_cons_self
  rcases hwithin with rfl | hwithin
  · exact hparent
  · exact NodeTable.mem_ancestors_trans h.table.forest.grounded hparent x hwithin

theorem lt_of_holds (hholds : d.Holds id x) : x < id :=
  (NodeTable.lt_of_mem_ancestors h.table.forest.grounded x (h.mem_ancestors_of_holds hholds)).1

/-- a scope that holds a node below `top` holds `top`, or is opened within it -/
theorem holds_or_within (x : Nat) : d.Within top x → d.Holds id x → d.Holds id top ∨ d.Within top id := by
  refine NodeTable.parent_induction h.table.forest.grounded
    (P := fun x => d.Within top x → d.Holds id x → d.Holds id top ∨ d.Within top id) ?_ ?_ x
  · intro x hp hwithin hholds
    rcases hwithin with rfl | hwithin
    · exact .inl hholds
    · rw [Document.ancestors, NodeTable.ancestors_of_no_parent hp] at hwithin
      cases hwithin
  · intro x parent hp ih hwithin hholds
    rcases (h.within_parent hp).mp hwithin with rfl | hwithin
    · exact .inl hholds
    · rcases (h.holds_parent hp).mp hholds with hholds | ⟨rfl, -⟩
      · exact ih hwithin hholds
      · exact .inr hwithin

/-! ## innermost scopes -/

theorem exists_innermost (x : Nat) : x < d.nodes.size → x ≠ d.root → ∃ id, d.Innermost id x := by
  refine NodeTable.parent_induction h.table.forest.grounded
    (P := fun x => x < d.nodes.size → x ≠ d.root → ∃ id, d.Innermost id x) ?_ ?_ x
  · intro x hp hx hne
    obtain ⟨parent, hp'⟩ := NodeTable.exists_parent h.table.forest hx hne
    cases hp.symm.trans hp'
  · intro x parent hp ih _ _
    by_cases hinner : x ∈ d.inner parent
    · refine ⟨parent, (h.holds_parent hp).mpr (.inr ⟨rfl, hinner⟩), fun other hother => ?_⟩
      rcases (h.holds_parent hp).mp hother with hother | ⟨rfl, -⟩
      · exact .inr hother
      · exact .inl rfl
    · -- the parent is not the program, as all statements of a program are inside of its scope
      obtain ⟨hparent, hchild⟩ := (h.table.forest.parent_iff x parent).mp hp
      have hne : parent ≠ d.root := by
        rintro rfl
        obtain ⟨body, hbody⟩ := h.program
        rw [Document.inner, scope?, hbody] at hinner
        change x ∈ (d.node d.root).children at hchild
        rw [hbody] at hchild
        exact hinner hchild
      obtain ⟨id, hholds, hall⟩ := ih hparent hne
      refine ⟨id, (h.holds_parent hp).mpr (.inl hholds), fun other hother => ?_⟩
      rcases (h.holds_parent hp).mp hother with hother | ⟨-, hmem⟩
      · exact hall other hother
      · exact absurd hmem hinner

end Placed

/-- the scopes of a binding hold the node, and the closed scopes of the node hold the binding -/
def Sees (d : Document) (x binder : Nat) : Prop :=
  (∀ id, d.Holds id binder → d.Holds id x) ∧
    ∀ id, d.isClosed id = true → d.Holds id x → d.Holds id binder

/-- a binding of the name in front of a node is seen from it -/
def Reaches (d : Document) (name : Text) (x : Nat) : Prop :=
  ∃ binder, d.Binds binder name (d.span x).start ∧ d.Sees x binder

namespace Placed
variable (h : d.Placed)
include h

theorem sees_iff {binder : Nat} (hinnermost : d.Innermost id binder) :
    d.Sees x binder ↔ d.Holds id x ∧
      ∀ other, d.isClosed other = true → d.Holds id other → ¬ d.Holds other x := by
  obtain ⟨hholds, hall⟩ := hinnermost
  have hbinder : d.Within id binder := .inr (h.mem_ancestors_of_holds hholds)
  constructor
  · rintro ⟨hshared, hclosed⟩
    refine ⟨hshared id hholds, fun other hother hnested hx => ?_⟩
    have hlt := h.lt_of_holds hnested
    rcases hall other (hclosed other hother hx) with rfl | hagain
    · omega
    · have := h.lt_of_holds hagain
      omega
  · rintro ⟨hx, hnone⟩
    have hbelow : d.Within id x := .inr (h.mem_ancestors_of_holds hx)
    refine ⟨fun other hother => ?_, fun other hother hsees => ?_⟩
    · rcases hall other hother with rfl | hother
      · exact hx
      · exact h.holds_mono hbelow hother
    · rcases h.holds_or_within x hbelow hsees with hother' | hwithin
      · exact h.holds_mono hbinder hother'
      · -- the other scope is opened within this one, and can only be this one
        have hle := h.le_of_within hwithin
        rcases h.holds_or_within x (.inr (h.mem_ancestors_of_holds hsees)) hx with hnested | hsame
        · exact absurd hsees (hnone other hother hnested)
        · obtain rfl : other = id := Nat.le_antisymm hle (h.le_of_within hsame)
          exact hholds

theorem inSight_iff {name : Text} : d.InSight name x ↔ d.Reaches name x := by
  constructor
  · rintro ⟨binder, id, hbinds, hinnermost, hsees⟩
    exact ⟨binder, hbinds, (h.sees_iff hinnermost).mpr hsees⟩
  · rintro ⟨binder, hbinds, hsees⟩
    have hbinder : binder < d.nodes.size ∧ binder ≠ d.root := by
      rcases hbinds with ⟨value, hnode, -⟩ | ⟨kind, fallback, hnode, -⟩
      · exact h.inner (by rw [hnode]; simp) (by rw [hnode]; simp)
      · exact h.inner (by rw [hnode]; simp) (by rw [hnode]; simp)
    obtain ⟨id, hinnermost⟩ := h.exists_innermost binder hbinder.1 hbinder.2
    exact ⟨binder, id, hbinds, hinnermost, (h.sees_iff hinnermost).mp hsees⟩

end Placed

end Document

end Collate
