import Mathlib.Logic.Function.Iterate
import Mathlib.Logic.Relation
import Collate.Proofs.Node.Ancestors
import Collate.Proofs.Sorting

/-!
# The walk with a stack

The walk through a table is a loop: it takes the node that waits on top, lists it and puts its
children in its place, the first one on top.  What is listed, and behind it all that is below the
waiting nodes, never changes, and every round lists one node of it.  So the loop ends after as many
rounds as there are nodes in `NodeTable.preorder`, also when nodes are named twice.

* `Walk`, `Walk.step`              the state of the loop, and one round of it;
* `Walk.step_ahead`                a round keeps what the loop is going to list;
* `Walk.run_listed`                the state after any number of rounds;
* `mem_preorder_iff_reachable`     the walk lists what is reached through children;
* `preorder_block`                 all that is below a node stands in one block;
* `siblings_ordered`               two children of a node come in the order of their starts;
* `NodeTable.Climbs`               the chain of parents up to a node that has none.
-/

namespace Collate

namespace NodeTable
variable {table : NodeTable}

/-! ## the loop -/

/-- the nodes that are listed, and those that wait, the next one first -/
structure Walk where
  listed : List Nat
  waiting : List Nat
  deriving DecidableEq, Repr

/-- one round: the next node is listed, and its children wait in its place -/
def Walk.step (table : NodeTable) (w : Walk) : Walk :=
  match w.waiting with
  | [] => w
  | id :: rest => ⟨w.listed ++ [id], table.sortedChildren id ++ rest⟩

/-- the state after some rounds from one node on -/
def Walk.run (table : NodeTable) (root rounds : Nat) : Walk :=
  (Walk.step table)^[rounds] ⟨[], [root]⟩

/-- all that is below the waiting nodes -/
def Walk.ahead (table : NodeTable) (w : Walk) : List Nat :=
  w.waiting.flatMap table.preorder

/-- a round lists the first of the nodes ahead, and all waiting nodes stay in the table -/
theorem Walk.step_ahead (h : Grounded table) (w : Walk) (hw : ∀ id ∈ w.waiting, id < table.size) :
    (w.step table).listed = w.listed ++ (w.ahead table).take 1 ∧
      (w.step table).ahead table = (w.ahead table).drop 1 ∧
      ∀ id ∈ (w.step table).waiting, id < table.size := by
  obtain ⟨listed, waiting⟩ := w
  cases waiting with
  | nil => exact ⟨(List.append_nil listed).symm, rfl, hw⟩
  | cons id rest =>
    have hid := hw id List.mem_cons_self
    have hahead : Walk.ahead table ⟨listed, id :: rest⟩ =
        id :: (table.sortedChildren id ++ rest).flatMap table.preorder := by
      rw [Walk.ahead, List.flatMap_cons, preorder_eq h hid, List.cons_append, List.flatMap_append]
    rw [hahead]
    refine ⟨rfl, rfl, fun x hx => ?_⟩
    rcases List.mem_append.mp hx with hx | hx
    · have hlt := h.child_lt id hid x (mem_sortedChildren.mp hx)
      omega
    · exact hw x (List.mem_cons_of_mem _ hx)

/-- after any number of rounds the first nodes of the walk are listed, and the others are ahead -/
theorem Walk.run_listed (h : Grounded table) {root : Nat} (hroot : root < table.size) (rounds : Nat) :
    (Walk.run table root rounds).listed = (table.preorder root).take rounds ∧
      (Walk.run table root rounds).ahead table = (table.preorder root).drop rounds ∧
      ∀ id ∈ (Walk.run table root rounds).waiting, id < table.size := by
  induction rounds with
  | zero =>
    refine ⟨rfl, ?_, fun id hid => ?_⟩
    · exact List.flatMap_singleton _ _
    · rwa [List.mem_singleton.mp hid]
  | succ rounds ih =>
    obtain ⟨hlisted, hahead, hwaiting⟩ := ih
    have hstep : Walk.run table root (rounds + 1) = (Walk.run table root rounds).step table :=
      Function.iterate_succ_apply' _ _ _
    obtain ⟨hlisted', hahead', hwaiting'⟩ := Walk.step_ahead h _ hwaiting
    rw [hstep, hlisted', hahead', hlisted, hahead]
    exact ⟨List.take_add.symm, List.drop_drop, hwaiting'⟩

theorem Walk.run_ends (h : Grounded table) {root : Nat} (hroot : root < table.size) (rounds : Nat) :
    (Walk.run table root rounds).waiting = [] ↔ (table.preorder root).length ≤ rounds := by
  obtain ⟨-, hahead, hwaiting⟩ := Walk.run_listed h hroot rounds
  rw [← List.drop_eq_nil_iff, ← hahead, Walk.ahead, List.flatMap_eq_nil_iff]
  constructor
  · intro hnone id hid
    rw [hnone] at hid
    cases hid
  · intro hall
    refine List.eq_nil_iff_forall_not_mem.mpr fun id hid => ?_
    have hself := self_mem_preorder h (hwaiting id hid)
    rw [hall id hid] at hself
    cases hself

/-! ## what is reached -/

def Names (table : NodeTable) (parent child : Nat) : Prop :=
  child ∈ (table.node parent).children

theorem mem_preorder_iff_reachable (h : Grounded table) {root x : Nat} (hroot : root < table.size) :
    x ∈ table.preorder root ↔ Relation.ReflTransGen table.Names root x := by
  constructor
  · induction root using Nat.strongRecOn with
    | ind root ih =>
      intro hx
      rcases (mem_preorder h hroot).mp hx with rfl | ⟨child, hchild, hx⟩
      · exact .refl
      · have hlt := h.child_lt root hroot child hchild
        exact .head hchild (ih child hlt (by omega) hx)
  · intro hreach
    induction hreach with
    | refl => exact self_mem_preorder h hroot
    | tail _ hchild ih => exact mem_preorder_of_child h hchild root hroot ih

/-! ## the order of the walk -/

theorem preorder_block (h : Grounded table) {x : Nat} (root : Nat) :
    root < table.size → x ∈ table.preorder root → table.preorder x <:+: table.preorder root := by
  induction root using Nat.strongRecOn with
  | ind root ih =>
    intro hroot hx
    rcases (mem_preorder h hroot).mp hx with rfl | ⟨child, hchild, hx⟩
    · exact List.infix_refl _
    · have hlt := h.child_lt root hroot child hchild
      have hblock := ih child hlt (by omega) hx
      obtain ⟨before, behind, hsorted⟩ := List.append_of_mem (mem_sortedChildren.mpr hchild)
      rw [preorder_eq h hroot, hsorted, List.flatMap_append, List.flatMap_cons]
      exact hblock.trans ((List.infix_append' _ _ _).trans (List.suffix_cons _ _).isInfix)

theorem cons_sortedChildren_sublist (h : Grounded table) {id : Nat} (hid : id < table.size) :
    (id :: table.sortedChildren id).Sublist (table.preorder id) := by
  rw [preorder_eq h hid]
  refine .cons_cons id ?_
  have hchildren : ∀ child ∈ table.sortedChildren id, child < table.size := fun child hchild => by
    have hlt := h.child_lt id hid child (mem_sortedChildren.mp hchild)
    omega
  generalize table.sortedChildren id = children at hchildren
  induction children with
  | nil => exact .slnil
  | cons child children ih =>
    obtain ⟨hchild, hrest⟩ := List.forall_mem_cons.mp hchildren
    rw [List.flatMap_cons, preorder_eq h hchild, List.cons_append]
    exact .cons_cons child ((ih hrest).trans (List.sublist_append_right _ _))

theorem parent_before (h : Unshared table) {root x : Nat} (hroot : root < table.size)
    (hx : x ∈ table.preorder root) (hne : x ≠ root) :
    ∃ parent, table.parent x = some parent ∧ [parent, x].Sublist (table.preorder root) := by
  obtain ⟨parent, hmem, hp⟩ := parent_mem_preorder h root hroot hx hne
  obtain ⟨hparent, hchild⟩ := h.child_of_parent x parent hp
  have hpair : [parent, x].Sublist (parent :: table.sortedChildren parent) :=
    .cons_cons parent (List.singleton_sublist.mpr (mem_sortedChildren.mpr hchild))
  have hblock := (preorder_block h.toGrounded root hroot hmem).sublist
  exact ⟨parent, hp, hpair.trans ((cons_sortedChildren_sublist h.toGrounded hparent).trans hblock)⟩

/-- two children of a node come in the order of their starts, and in the order they are named in when
they start together -/
theorem siblings_ordered (h : Unshared table) {root id : Nat} (hroot : root < table.size)
    (hid : id ∈ table.preorder root) :
    (table.node id).children.Pairwise fun a b =>
      if (table.span a).start ≤ (table.span b).start then [a, b].Sublist (table.preorder root)
      else [b, a].Sublist (table.preorder root) := by
  have hlt : id < table.size := by
    have hle := le_of_mem_preorder h.toGrounded root hroot hid
    omega
  have hblock := (preorder_block h.toGrounded root hroot hid).sublist
  have hchildren : (table.sortedChildren id).Sublist (table.preorder root) :=
    ((List.sublist_cons_self _ _).trans (cons_sortedChildren_sublist h.toGrounded hlt)).trans hblock
  refine List.pairwise_iff_forall_sublist.mpr fun {a b} hpair => ?_
  have htotal (a b : Nat) : decide ((table.span a).start ≤ (table.span b).start) ||
      decide ((table.span b).start ≤ (table.span a).start) := by simpa using Nat.le_total _ _
  have hsorted := sortBy_pair htotal (fun a b c hab hbc => by simp_all; omega) (h.children_nodup id hlt) hpair
  split at hsorted
  next hle =>
    rw [if_pos (of_decide_eq_true hle)]
    exact hsorted.trans hchildren
  next hle =>
    rw [if_neg fun hle' => hle (decide_eq_true hle')]
    exact hsorted.trans hchildren

/-! ## the way up -/

/-- from a number on, the parents one after the other, up to a node that has none -/
inductive Climbs (table : NodeTable) : Option Nat → List Nat → Prop
  | top : Climbs table none []
  | up {id : Nat} {above : List Nat} (rest : Climbs table (table.parent id) above) :
      Climbs table (some id) (id :: above)

theorem ancestors_climbs (h : Grounded table) (id : Nat) :
    Climbs table (table.parent id) (table.ancestors id) := by
  refine parent_induction h (P := fun id => Climbs table (table.parent id) (table.ancestors id)) ?_ ?_ id
  · intro id hp
    rw [ancestors_of_no_parent hp, hp]
    exact .top
  · intro id parent hp ih
    rw [ancestors_of_parent h hp, hp]
    exact .up ih

theorem ancestors_increase (h : Grounded table) (id : Nat) :
    (id :: table.ancestors id).Pairwise (· < ·) := by
  refine parent_induction h (P := fun id => (id :: table.ancestors id).Pairwise (· < ·)) ?_ ?_ id
  · intro id hp
    rw [ancestors_of_no_parent hp]
    exact List.pairwise_singleton _ id
  · intro id parent hp ih
    refine List.pairwise_cons.mpr ⟨fun a ha => (lt_of_mem_ancestors h id ha).1, ?_⟩
    rw [ancestors_of_parent h hp]
    exact ih

end NodeTable

end Collate
