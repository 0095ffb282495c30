import Collate.Node.Table

/-!
# Tables that hold trees

A table that grows by whole trees is a forest: children have smaller numbers than their parents,
no node is named twice, and the recorded parent of a node is the one that names it.  One more node
over the last roots keeps this, and so does a whole tree.  A tree can be read back from the number
of its top.

* `NodeTable.Grounded`, `NodeTable.Unshared`   children have smaller numbers, and no node is named twice;
* `NodeTable.Forest`         the invariant, with the numbers of the roots;
* `NodeTable.Extends`        old numbers keep their construct and span;
* `NodeTable.tree`           the tree below a number;
* `NodeTable.pushTree_grown` a pushed tree keeps the invariant and is read back.
-/

namespace Collate

theorem option_map_congr {α β : Type} {f g : α → β} (o : Option α)
    (h : ∀ a ∈ o.toList, f a = g a) : o.map f = o.map g := by
  cases o with
  | none => rfl
  | some a => exact congrArg some (h a (by simp))

theorem Node.map_congr {α β : Type} {f g : α → β} (node : Node α)
    (h : ∀ a ∈ node.children, f a = g a) : node.map f = node.map g := by
  cases node with
  | pair key value colon =>
    simp only [children, List.mem_cons, forall_eq_or_imp] at h
    rw [map, map, h.1, option_map_congr value h.2]
  | call receiver method selector args =>
    simp only [children, List.mem_append, or_imp, forall_and] at h
    rw [map, map, option_map_congr receiver h.1, List.map_congr_left h.2]
  | definition keyword name singleton params body =>
    simp only [children, List.mem_append, or_imp, forall_and] at h
    rw [map, map, option_map_congr singleton h.1, List.map_congr_left h.2.1, List.map_congr_left h.2.2]
  | parameter kind name fallback => rw [map, map, option_map_congr fallback h]
  | _ => simp_all [map, children]

def Tree.isRun : Tree → Bool
  | .mk (.literal none _) _ => true
  | _ => false

namespace NodeTable
variable {table table' table'' : NodeTable}

/-! ## one more node -/

theorem adopt_getElem? (rows : Array Row) (parent : Nat) (children : List Nat) (id : Nat) :
    (adopt rows parent children)[id]? =
      rows[id]?.map (fun r => if id ∈ children then { r with parent := some parent } else r) := by
  induction children generalizing rows with
  | nil => simp [adopt]
  | cons child children ih =>
    have hstep : adopt rows parent (child :: children)
        = adopt (rows.modify child (fun r => { r with parent := some parent })) parent children := rfl
    rw [hstep, ih, Array.getElem?_modify]
    by_cases hchild : child = id
    · subst hchild
      rw [if_pos rfl, Option.map_map]
      refine congrArg (fun f => Option.map f rows[child]?) (funext fun r => ?_)
      by_cases hmem : child ∈ children <;> simp [hmem]
    · rw [if_neg hchild]
      have hne : ¬ id = child := fun h => hchild h.symm
      simp [hne]

@[simp]
theorem size_push (node : Node Nat) (span : Span) : (table.push node span).size = table.size + 1 := by
  rw [size, push, Array.size_push, adopt_size]
  rfl

/-- the row of an old number: only its parent may change -/
theorem row_pushAs_of_lt (numbering : Numbering) (node : Node Nat) (span : Span) {id : Nat}
    (h : id < table.size) : (table.pushAs numbering node span).row id =
      if id ∈ node.children then { table.row id with parent := some (numbering.number table.size) }
      else table.row id := by
  have hlt : id < table.rows.size := h
  have hold : table.rows[id]? = some (table.row id) := by
    rw [row, Array.getD_eq_getD_getElem?, Array.getElem?_eq_getElem hlt]
    rfl
  rw [row, pushAs, Array.getD_eq_getD_getElem?, Array.getElem?_push, adopt_size,
    if_neg (Nat.ne_of_lt hlt), adopt_getElem?, hold]
  rfl

theorem row_push_of_lt (node : Node Nat) (span : Span) {id : Nat} (h : id < table.size) :
    (table.push node span).row id =
      if id ∈ node.children then { table.row id with parent := some table.size }
      else table.row id :=
  row_pushAs_of_lt .unbounded node span h

theorem number_size {numbering : Numbering} (h : numbering.Counts (table.size + 1)) :
    numbering.number table.size = table.size := by
  cases hn : numbering with
  | unbounded => rfl
  | short => exact Nat.mod_eq_of_lt (h hn)

theorem pushAs_eq_push {numbering : Numbering} (node : Node Nat) (span : Span)
    (h : numbering.Counts (table.size + 1)) : table.pushAs numbering node span = table.push node span := by
  rw [pushAs, number_size h]
  rfl

theorem row_push_size (node : Node Nat) (span : Span) :
    (table.push node span).row table.size = ⟨node, span, none⟩ := by
  rw [row, push, Array.getD_eq_getD_getElem?, Array.getElem?_push, adopt_size]
  have hsize : table.size = table.rows.size := rfl
  rw [if_pos hsize]
  rfl

theorem row_of_size_le {id : Nat} (h : table.size ≤ id) : table.row id = .absent := by
  rw [row, Array.getD_eq_getD_getElem?, Array.getElem?_eq_none h]
  rfl

/-- old numbers keep their construct and span -/
structure Extends (table table' : NodeTable) : Prop where
  size_le : table.size ≤ table'.size
  node_eq : ∀ id < table.size, table'.node id = table.node id
  span_eq : ∀ id < table.size, table'.span id = table.span id

theorem Extends.refl (table : NodeTable) : table.Extends table :=
  ⟨Nat.le_refl _, fun _ _ => rfl, fun _ _ => rfl⟩

theorem Extends.trans (h : table.Extends table') (h' : table'.Extends table'') :
    table.Extends table'' := by
  have hle := h.size_le
  refine ⟨Nat.le_trans hle h'.size_le, fun id hid => ?_, fun id hid => ?_⟩
  · rw [h'.node_eq id (by omega), h.node_eq id hid]
  · rw [h'.span_eq id (by omega), h.span_eq id hid]

theorem extends_push (node : Node Nat) (span : Span) : table.Extends (table.push node span) := by
  refine ⟨by rw [size_push]; omega, fun id hid => ?_, fun id hid => ?_⟩
  · rw [NodeTable.node, row_push_of_lt node span hid]
    split <;> rfl
  · rw [NodeTable.span, row_push_of_lt node span hid]
    split <;> rfl

theorem parent_push_of_lt (node : Node Nat) (span : Span) {id : Nat} (h : id < table.size) :
    (table.push node span).parent id =
      if id ∈ node.children then some table.size else table.parent id := by
  rw [NodeTable.parent, row_push_of_lt node span h]
  split <;> rfl

theorem parent_push_of_le (node : Node Nat) (span : Span) {id : Nat} (h : table.size ≤ id) :
    (table.push node span).parent id = none := by
  rw [NodeTable.parent]
  rcases Nat.eq_or_lt_of_le h with rfl | hlt
  · rw [row_push_size]
  · rw [row_of_size_le (by rw [size_push]; omega)]
    rfl

theorem node_push_size (node : Node Nat) (span : Span) :
    (table.push node span).node table.size = node := by
  rw [NodeTable.node, row_push_size]

theorem span_push_size (node : Node Nat) (span : Span) :
    (table.push node span).span table.size = span := by
  rw [NodeTable.span, row_push_size]

/-! ## forests -/

/-- children have smaller numbers, and a recorded parent is one that names the node -/
structure Grounded (table : NodeTable) : Prop where
  child_lt : ∀ id < table.size, ∀ child ∈ (table.node id).children, child < id
  child_of_parent : ∀ child parent, table.parent child = some parent →
    parent < table.size ∧ child ∈ (table.node parent).children

theorem Grounded.child_lt_size (h : Grounded table) {child parent : Nat}
    (hp : table.parent child = some parent) : child < parent ∧ parent < table.size := by
  obtain ⟨hlt, hmem⟩ := h.child_of_parent child parent hp
  exact ⟨h.child_lt parent hlt child hmem, hlt⟩

/-- no node is named twice, so the one that names a node is its parent -/
structure Unshared (table : NodeTable) : Prop extends Grounded table where
  parent_of_child : ∀ parent < table.size, ∀ child ∈ (table.node parent).children,
    table.parent child = some parent
  children_nodup : ∀ id < table.size, (table.node id).children.Nodup

/-- Children have smaller numbers and are named once, the recorded parent of a node is the one that
names it, and the nodes that nobody names are the roots. -/
structure Forest (table : NodeTable) (roots : List Nat) : Prop where
  child_lt : ∀ id < table.size, ∀ child ∈ (table.node id).children, child < id
  children_nodup : ∀ id < table.size, (table.node id).children.Nodup
  parent_iff : ∀ child parent,
    table.parent child = some parent ↔ parent < table.size ∧ child ∈ (table.node parent).children
  root_iff : ∀ id, id ∈ roots ↔ id < table.size ∧ table.parent id = none
  roots_nodup : roots.Nodup

theorem forest_empty : Forest empty [] := by
  refine ⟨fun id h => ?_, fun id h => ?_, fun child parent => ?_, fun id => ?_, List.nodup_nil⟩
  · exact absurd h (Nat.not_lt_zero id)
  · exact absurd h (Nat.not_lt_zero id)
  · constructor
    · intro h
      exact nomatch h
    · intro h
      exact absurd h.1 (Nat.not_lt_zero parent)
  · constructor
    · intro h
      exact nomatch h
    · intro h
      exact absurd h.1 (Nat.not_lt_zero id)

namespace Forest
variable {roots roots' ids : List Nat}

theorem perm (h : Forest table roots) (hperm : roots.Perm roots') : Forest table roots' :=
  ⟨h.child_lt, h.children_nodup, h.parent_iff, fun id => hperm.mem_iff.symm.trans (h.root_iff id),
    hperm.nodup_iff.mp h.roots_nodup⟩

theorem root_lt (h : Forest table roots) {id : Nat} (hid : id ∈ roots) : id < table.size :=
  ((h.root_iff id).mp hid).1

theorem unshared (h : Forest table roots) : Unshared table where
  child_lt := h.child_lt
  child_of_parent := fun child parent => (h.parent_iff child parent).mp
  parent_of_child := fun parent hlt child hmem => (h.parent_iff child parent).mpr ⟨hlt, hmem⟩
  children_nodup := h.children_nodup

theorem grounded (h : Forest table roots) : Grounded table :=
  h.unshared.toGrounded

theorem parent_of_root (h : Forest table roots) {id : Nat} (hid : id ∈ roots) :
    table.parent id = none :=
  ((h.root_iff id).mp hid).2

theorem push {node : Node Nat} (h : Forest table (roots ++ node.children)) (span : Span) :
    Forest (table.push node span) (roots ++ [table.size]) := by
  have hext : table.Extends (table.push node span) := extends_push node span
  have hchild {id : Nat} (hid : id ∈ node.children) : id < table.size ∧ table.parent id = none :=
    (h.root_iff id).mp (List.mem_append_right _ hid)
  obtain ⟨hroots, hnodup, hapart⟩ := List.nodup_append.mp h.roots_nodup
  constructor
  case child_lt =>
    intro id hid child hmem
    rw [size_push] at hid
    rcases Nat.lt_or_eq_of_le (Nat.le_of_lt_succ hid) with hlt | rfl
    · rw [hext.node_eq id hlt] at hmem
      exact h.child_lt id hlt child hmem
    · rw [node_push_size] at hmem
      exact (hchild hmem).1
  case children_nodup =>
    intro id hid
    rw [size_push] at hid
    rcases Nat.lt_or_eq_of_le (Nat.le_of_lt_succ hid) with hlt | rfl
    · rw [hext.node_eq id hlt]
      exact h.children_nodup id hlt
    · rw [node_push_size]
      exact hnodup
  case parent_iff =>
    intro child parent
    rw [size_push]
    constructor
    · intro hp
      rcases Nat.lt_or_ge child table.size with hlt | hge
      · rw [parent_push_of_lt node span hlt] at hp
        split at hp
        next hmem =>
          rw [← Option.some.inj hp, node_push_size]
          exact ⟨Nat.lt_succ_self _, hmem⟩
        next =>
          obtain ⟨hparent, hmem⟩ := (h.parent_iff child parent).mp hp
          rw [hext.node_eq parent hparent]
          exact ⟨by omega, hmem⟩
      · rw [parent_push_of_le node span hge] at hp
        exact nomatch hp
    · rintro ⟨hparent, hmem⟩
      rcases Nat.lt_or_eq_of_le (Nat.le_of_lt_succ hparent) with hlt | rfl
      · rw [hext.node_eq parent hlt] at hmem
        have hp := (h.parent_iff child parent).mpr ⟨hlt, hmem⟩
        have hnot : child ∉ node.children := by
          intro hc
          rw [(hchild hc).2] at hp
          exact nomatch hp
        have hchildLt := h.child_lt parent hlt child hmem
        rw [parent_push_of_lt node span (by omega), if_neg hnot]
        exact hp
      · rw [node_push_size] at hmem
        rw [parent_push_of_lt node span (hchild hmem).1, if_pos hmem]
  case root_iff =>
    intro id
    rw [size_push, List.mem_append, List.mem_singleton]
    constructor
    · rintro (hid | rfl)
      · obtain ⟨hlt, hnone⟩ := (h.root_iff id).mp (List.mem_append_left _ hid)
        have hnot : id ∉ node.children := fun hc => hapart id hid id hc rfl
        rw [parent_push_of_lt node span hlt, if_neg hnot]
        exact ⟨by omega, hnone⟩
      · exact ⟨Nat.lt_succ_self _, parent_push_of_le node span (Nat.le_refl _)⟩
    · rintro ⟨hid, hnone⟩
      rcases Nat.lt_or_eq_of_le (Nat.le_of_lt_succ hid) with hlt | rfl
      · rw [parent_push_of_lt node span hlt] at hnone
        split at hnone
        next => exact nomatch hnone
        next hnot =>
          rcases List.mem_append.mp ((h.root_iff id).mpr ⟨hlt, hnone⟩) with hroot | hmem
          · exact .inl hroot
          · exact absurd hmem hnot
      · exact .inr rfl
  case roots_nodup =>
    refine List.nodup_append.mpr ⟨hroots, List.pairwise_singleton _ _, ?_⟩
    intro root hroot id hid
    rw [List.mem_singleton.mp hid]
    exact Nat.ne_of_lt (h.root_lt (List.mem_append_left _ hroot))

end Forest

/-! ## reading a tree back -/

def unfold (table : NodeTable) : Nat → Nat → Tree
  | 0, id => .leaf (table.span id)
  | depth + 1, id => ⟨(table.node id).map (unfold table depth), table.span id⟩

def tree (table : NodeTable) (id : Nat) : Tree :=
  table.unfold (id + 1) id

section
variable {roots : List Nat}

theorem unfold_eq_tree (h : Forest table roots) (depth : Nat) :
    ∀ id < table.size, id < depth → table.unfold depth id = table.tree id := by
  induction depth using Nat.strongRecOn with
  | ind depth ih =>
    intro id hid hdepth
    cases depth with
    | zero => omega
    | succ depth =>
      have hmap : (table.node id).map (table.unfold depth) = (table.node id).map (table.unfold id) := by
        refine Node.map_congr _ ?_
        intro child hchild
        have hlt := h.child_lt id hid child hchild
        rw [ih depth (Nat.lt_succ_self _) child (by omega) (by omega)]
        rcases Nat.lt_or_ge id (depth + 1) with hle | hge
        · exact (ih id hle child (by omega) hlt).symm
        · omega
      rw [tree, unfold, unfold, hmap]

theorem tree_eq (h : Forest table roots) {id : Nat} (hid : id < table.size) :
    table.tree id = ⟨(table.node id).map table.tree, table.span id⟩ := by
  rw [tree, unfold]
  refine congrArg (fun node => Tree.mk node _) (Node.map_congr _ ?_)
  intro child hchild
  have hlt := h.child_lt id hid child hchild
  exact unfold_eq_tree h id child (by omega) hlt

theorem unfold_extends (h : Forest table roots) (hext : table.Extends table') (depth : Nat) :
    ∀ id < table.size, table'.unfold depth id = table.unfold depth id := by
  induction depth with
  | zero =>
    intro id hid
    rw [unfold, unfold, hext.span_eq id hid]
  | succ depth ih =>
    intro id hid
    rw [unfold, unfold, hext.span_eq id hid, hext.node_eq id hid]
    refine congrArg (fun node => Tree.mk node _) (Node.map_congr _ ?_)
    intro child hchild
    have hlt := h.child_lt id hid child hchild
    exact ih child (by omega)

theorem tree_extends (h : Forest table roots) (hext : table.Extends table') {id : Nat}
    (hid : id < table.size) : table'.tree id = table.tree id :=
  unfold_extends h hext _ id hid

end

/-! ## whole trees -/

/-- a table has grown by trees with these tops, behind the roots it had -/
structure Grown (roots ids : List Nat) (table table' : NodeTable) : Prop where
  forest : Forest table' (roots ++ ids)
  extended : table.Extends table'

namespace Grown
variable {roots ids ids' : List Nat}

theorem refl (h : Forest table roots) : Grown roots [] table table :=
  ⟨(List.append_nil roots).symm ▸ h, Extends.refl table⟩

theorem trans (h : Grown roots ids table table') (h' : Grown (roots ++ ids) ids' table' table'') :
    Grown roots (ids ++ ids') table table'' := by
  have hforest := h'.forest
  rw [List.append_assoc] at hforest
  exact ⟨hforest, h.extended.trans h'.extended⟩

theorem perm (h : Grown roots ids table table') (hperm : ids.Perm ids') :
    Grown roots ids' table table' :=
  ⟨h.forest.perm (hperm.append_left roots), h.extended⟩

theorem keeps (h : Grown roots ids table table') (hext : table'.Extends table'') {id : Nat}
    (hid : id ∈ ids) : table''.tree id = table'.tree id :=
  tree_extends h.forest hext (h.forest.root_lt (List.mem_append_right _ hid))

theorem keeps_list (h : Grown roots ids table table') (hext : table'.Extends table'') :
    ids.map table''.tree = ids.map table'.tree :=
  List.map_congr_left (fun _ hid => h.keeps hext hid)

theorem keeps_option {id : Option Nat} (h : Grown roots id.toList table table')
    (hext : table'.Extends table'') : id.map table''.tree = id.map table'.tree :=
  option_map_congr id (fun _ hid => h.keeps hext hid)

theorem push {node : Node Nat} (h : Grown roots node.children table table') (span : Span) :
    Grown roots [table'.size] table (table'.push node span) :=
  ⟨h.forest.push span, h.extended.trans (extends_push node span)⟩

theorem push_first {node : Node Nat} (h : Grown roots (node.children ++ ids) table table')
    (span : Span) : Grown roots (table'.size :: ids) table (table'.push node span) := by
  have hperm : (roots ++ (node.children ++ ids)).Perm ((roots ++ ids) ++ node.children) := by
    rw [List.append_assoc]
    exact List.perm_append_comm.append_left roots
  have hforest := h.forest.perm hperm
  refine ⟨(hforest.push span).perm ?_, h.extended.trans (extends_push node span)⟩
  rw [List.append_assoc]
  exact (List.perm_append_singleton _ ids).append_left roots

end Grown

theorem exists_of_isRun {tree : Tree} (h : tree.isRun = true) :
    ∃ elements span, tree = ⟨.literal none elements, span⟩ := by
  obtain ⟨node, span⟩ := tree
  cases node with
  | literal braces elements =>
    cases braces with
    | none => exact ⟨elements, span, rfl⟩
    | some braces => cases h
  | _ => cases h

/-- a tree is complete before the ones behind it, unless it is a literal without braces -/
theorem pushAll_cons (table : NodeTable) {tree : Tree} {trees : List Tree}
    (h : tree.isRun = false ∨ trees = []) :
    table.pushAll (tree :: trees) = (((table.pushTree tree).1.pushAll trees).1,
      (table.pushTree tree).2 :: ((table.pushTree tree).1.pushAll trees).2) := by
  refine pushAll.eq_3 table tree trees ?_
  rintro elements span next rest rfl rfl
  rcases h with h | h <;> cases h

theorem cons_cases (tree : Tree) (trees : List Tree) :
    (∃ elements span next rest, tree = ⟨.literal none elements, span⟩ ∧ trees = next :: rest) ∨
      (tree.isRun = false ∨ trees = []) := by
  cases hrun : tree.isRun with
  | false => exact .inr (.inl rfl)
  | true =>
    cases trees with
    | nil => exact .inr (.inr rfl)
    | cons next rest =>
      obtain ⟨elements, span, htree⟩ := exists_of_isRun hrun
      exact .inl ⟨elements, span, next, rest, htree, rfl⟩

/-- a node over what was pushed is read back from its children -/
theorem tree_push {roots : List Nat} {node : Node Nat} {node' : Node Tree} (span : Span)
    (h : Forest (table.push node span) roots) (hnode : node.map (table.push node span).tree = node') :
    (table.push node span).tree table.size = ⟨node', span⟩ := by
  rw [tree_eq h (by rw [size_push]; omega), node_push_size, span_push_size, hnode]

mutual

theorem pushTree_grown (table : NodeTable) (roots : List Nat) (h : Forest table roots) :
    (tree : Tree) → Grown roots [(table.pushTree tree).2] table (table.pushTree tree).1 ∧
      (table.pushTree tree).1.tree (table.pushTree tree).2 = tree
  | .mk node span => by
    obtain ⟨hg, hm⟩ := pushNode_grown table roots h node
    have hpush := hg.push span
    simp only [pushTree]
    refine ⟨hpush, tree_push span hpush.forest ?_⟩
    rw [Node.map_congr _ (fun _ hid => hg.keeps (extends_push _ _) hid), hm]

theorem pushNode_grown (table : NodeTable) (roots : List Nat) (h : Forest table roots) :
    (node : Node Tree) → Grown roots (table.pushNode node).2.children table (table.pushNode node).1 ∧
      (table.pushNode node).2.map (table.pushNode node).1.tree = node
  | .program body => by
    obtain ⟨hg, hm⟩ := pushAll_grown table roots h body
    simp only [pushNode]
    exact ⟨hg, by rw [Node.map, hm]⟩
  | .pair key value colon => by
    obtain ⟨hg, hm⟩ := pushTree_grown table roots h key
    obtain ⟨hg', hm'⟩ := pushOption_grown _ _ hg.forest value
    simp only [pushNode]
    refine ⟨hg.trans hg', ?_⟩
    rw [Node.map, hm', hg.keeps hg'.extended List.mem_cons_self, hm]
  | .literal _ elements => by
    obtain ⟨hg, hm⟩ := pushAll_grown table roots h elements
    simp only [pushNode]
    exact ⟨hg, by rw [Node.map, hm]⟩
  | .symbol _ => ⟨Grown.refl h, rfl⟩
  | .str _ => ⟨Grown.refl h, rfl⟩
  | .localVariable _ => ⟨Grown.refl h, rfl⟩
  | .splat value => by
    obtain ⟨hg, hm⟩ := pushTree_grown table roots h value
    simp only [pushNode]
    exact ⟨hg, by rw [Node.map, hm]⟩
  | .doubleSplat value => by
    obtain ⟨hg, hm⟩ := pushTree_grown table roots h value
    simp only [pushNode]
    exact ⟨hg, by rw [Node.map, hm]⟩
  | .call receiver _ _ args => by
    obtain ⟨hg, hm⟩ := pushOption_grown table roots h receiver
    obtain ⟨hg', hm'⟩ := pushAll_grown _ _ hg.forest args
    simp only [pushNode]
    refine ⟨hg.trans hg', ?_⟩
    rw [Node.map, hm', hg.keeps_option hg'.extended, hm]
  | .block owner params body => by
    obtain ⟨hg, hm⟩ := pushTree_grown table roots h owner
    obtain ⟨hg', hm'⟩ := pushAll_grown _ _ hg.forest params
    obtain ⟨hg'', hm''⟩ := pushAll_grown _ _ hg'.forest body
    have hext := hg'.extended.trans hg''.extended
    simp only [pushNode]
    refine ⟨hg.trans (hg'.trans hg''), ?_⟩
    rw [Node.map, hm'', hg'.keeps_list hg''.extended, hm', hg.keeps hext List.mem_cons_self, hm]
  | .definition _ _ singleton params body => by
    obtain ⟨hg, hm⟩ := pushOption_grown table roots h singleton
    obtain ⟨hg', hm'⟩ := pushAll_grown _ _ hg.forest params
    obtain ⟨hg'', hm''⟩ := pushAll_grown _ _ hg'.forest body
    have hext := hg'.extended.trans hg''.extended
    simp only [pushNode]
    refine ⟨hg.trans (hg'.trans hg''), ?_⟩
    rw [Node.map, hm'', hg'.keeps_list hg''.extended, hm', hg.keeps_option hext, hm]
  | .parameter _ _ fallback => by
    obtain ⟨hg, hm⟩ := pushOption_grown table roots h fallback
    simp only [pushNode]
    exact ⟨hg, by rw [Node.map, hm]⟩
  | .conditional _ _ true condition body alternative => by
    obtain ⟨hg, hm⟩ := pushAll_grown table roots h body
    obtain ⟨hg', hm'⟩ := pushTree_grown _ _ hg.forest condition
    obtain ⟨hg'', hm''⟩ := pushAll_grown _ _ hg'.forest alternative
    have hext := hg'.extended.trans hg''.extended
    simp only [pushNode]
    refine ⟨(hg.trans (hg'.trans hg'')).perm List.perm_middle, ?_⟩
    rw [Node.map, hm'', hg.keeps_list hext, hm, hg'.keeps hg''.extended List.mem_cons_self, hm']
  | .conditional _ _ false condition body alternative => by
    obtain ⟨hg, hm⟩ := pushTree_grown table roots h condition
    obtain ⟨hg', hm'⟩ := pushAll_grown _ _ hg.forest body
    obtain ⟨hg'', hm''⟩ := pushAll_grown _ _ hg'.forest alternative
    have hext := hg'.extended.trans hg''.extended
    simp only [pushNode]
    refine ⟨hg.trans (hg'.trans hg''), ?_⟩
    rw [Node.map, hm'', hg'.keeps_list hg''.extended, hm', hg.keeps hext List.mem_cons_self, hm]
  | .assignment _ value => by
    obtain ⟨hg, hm⟩ := pushTree_grown table roots h value
    simp only [pushNode]
    exact ⟨hg, by rw [Node.map, hm]⟩
  | .other children => by
    obtain ⟨hg, hm⟩ := pushAll_grown table roots h children
    simp only [pushNode]
    exact ⟨hg, by rw [Node.map, hm]⟩

theorem pushAll_grown (table : NodeTable) (roots : List Nat) (h : Forest table roots) :
    (trees : List Tree) → Grown roots (table.pushAll trees).2 table (table.pushAll trees).1 ∧
      (table.pushAll trees).2.map (table.pushAll trees).1.tree = trees
  | [] => ⟨Grown.refl h, rfl⟩
  | tree :: trees => by
    rcases cons_cases tree trees with ⟨elements, span, next, rest, rfl, rfl⟩ | hcons
    · obtain ⟨hg, hm⟩ := pushAll_grown table roots h elements
      obtain ⟨hg', hm'⟩ := pushTree_grown _ _ hg.forest next
      let literal : Node Nat := .literal none (table.pushAll elements).2
      let mid : NodeTable := ((table.pushAll elements).1.pushTree next).1
      have hpush : Grown roots [mid.size, _] table (mid.push literal span) := (hg.trans hg').push_first span
      obtain ⟨hg'', hm''⟩ := pushAll_grown _ _ hpush.forest rest
      have hlast : mid.Extends (mid.push literal span) := extends_push literal span
      have hliteral : (mid.push literal span).tree mid.size = _ := tree_push span hpush.forest
        (congrArg (Node.literal none) ((hg.keeps_list (hg'.extended.trans hlast)).trans hm))
      simp only [pushAll]
      refine ⟨hpush.trans hg'', ?_⟩
      rw [List.map_cons, List.map_cons, hm'', hpush.keeps hg''.extended List.mem_cons_self, hliteral,
        hg'.keeps (hlast.trans hg''.extended) List.mem_cons_self, hm']
    · obtain ⟨hg, hm⟩ := pushTree_grown table roots h tree
      obtain ⟨hg', hm'⟩ := pushAll_grown _ _ hg.forest trees
      rw [pushAll_cons table hcons]
      refine ⟨hg.trans hg', ?_⟩
      rw [List.map_cons, hm', hg.keeps hg'.extended List.mem_cons_self, hm]

theorem pushOption_grown (table : NodeTable) (roots : List Nat) (h : Forest table roots) :
    (tree : Option Tree) →
      Grown roots (table.pushOption tree).2.toList table (table.pushOption tree).1 ∧
      (table.pushOption tree).2.map (table.pushOption tree).1.tree = tree
  | none => ⟨Grown.refl h, rfl⟩
  | some tree => by
    obtain ⟨hg, hm⟩ := pushTree_grown table roots h tree
    simp only [pushOption]
    exact ⟨hg, by rw [Option.map_some, hm]⟩

end

end NodeTable

end Collate
