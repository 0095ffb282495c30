import Collate.Proofs.Document.Read
import Collate.Proofs.Grammar.Statement
import Collate.Proofs.Node.Preorder

/-!
# Documents that were read

The table of a document that was read is a forest with one root, and the tree below every other
number is placed in the text.  What holds of placed trees is stated here once more in the words of
the table: numbers, their spans and their children.

* `NodeTable.Placed`        the invariant of such a table;
* `Document.Placed`         a table of this kind under a program that covers the text, with the
                            comments of the text;
* `Document.placed_of_read` reading a text gives it.
-/

namespace Collate

theorem Node.inOrder_map {α β : Type} (f : α → β) (node : Node α) :
    (node.map f).inOrder = node.inOrder.map f := by
  cases node with
  | conditional keyword span modifier condition body alternative =>
    cases modifier <;> simp [map, inOrder, children]
  | _ => simp [map, inOrder, children, toList_map_option]

theorem Node.program_of_map {α β : Type} {f : α → β} {node : Node α} {body : List β}
    (h : node.map f = .program body) : ∃ body', node = .program body' := by
  cases node with
  | program body' => exact ⟨body', rfl⟩
  | _ => exact nomatch h

namespace NodeTable

/-- one root with its children in a row, and placed trees below all other numbers -/
structure Placed (t : Text) (table : NodeTable) (root : Nat) : Prop where
  forest : table.Forest [root]
  row : ∀ id < table.size,
    Tree.InRow ((table.node id).inOrder.map table.tree) (table.span id).start (table.span id).stop
  placed : ∀ id < table.size, id ≠ root → (table.tree id).Placed t

variable {t : Text} {table : NodeTable} {root : Nat}

@[simp]
theorem tree_span (table : NodeTable) (id : Nat) : (table.tree id).span = table.span id := rfl

theorem tree_node (h : table.Forest [root]) {id : Nat} (hid : id < table.size) :
    (table.tree id).node = (table.node id).map table.tree := by
  rw [tree_eq h hid]
  rfl

theorem exists_parent (h : table.Forest [root]) {id : Nat} (hid : id < table.size)
    (hne : id ≠ root) : ∃ parent, table.parent id = some parent := by
  cases hp : table.parent id with
  | none =>
    have hmem := (h.root_iff id).mpr ⟨hid, hp⟩
    exact absurd (List.mem_singleton.mp hmem) hne
  | some parent => exact ⟨parent, rfl⟩

/-- what a tree hands down to its children holds everywhere below the root, if it does directly below -/
theorem forall_of_children (h : table.Forest [root]) {P : Tree → Prop}
    (hdown : ∀ tree, P tree → ∀ child ∈ tree.children, P child)
    (hroot : ∀ child ∈ (table.node root).children, P (table.tree child)) (n : Nat) :
    ∀ id < table.size, id ≠ root → table.size - id ≤ n → P (table.tree id) := by
  induction n with
  | zero =>
    intro id hid _ hn
    omega
  | succ n ih =>
    intro id hid hne hn
    obtain ⟨parent, hp⟩ := exists_parent h hid hne
    obtain ⟨hparent, hmem⟩ := (h.parent_iff id parent).mp hp
    have hlt := h.child_lt parent hparent id hmem
    by_cases heq : parent = root
    · subst heq
      exact hroot id hmem
    · refine hdown _ (ih parent hparent heq (by omega)) _ ?_
      rw [Tree.children, tree_node h hparent, Node.children_map]
      exact List.mem_map_of_mem hmem

theorem placed_pushTree (tree : Tree) (hchildren : ∀ child ∈ tree.children, child.Placed t)
    (hrow : Tree.InRow tree.node.inOrder tree.span.start tree.span.stop) :
    Placed t (empty.pushTree tree).1 (empty.pushTree tree).2 := by
  obtain ⟨hg, htree⟩ := pushTree_grown empty [] forest_empty tree
  have hforest : (empty.pushTree tree).1.Forest [(empty.pushTree tree).2] := hg.forest
  generalize (empty.pushTree tree).1 = table at hforest htree ⊢
  generalize (empty.pushTree tree).2 = root at hforest htree ⊢
  have hrootLt := hforest.root_lt (List.mem_singleton.mpr rfl)
  have hnode : tree.node = (table.node root).map table.tree := by
    rw [← htree]
    exact tree_node hforest hrootLt
  have hspan : tree.span = table.span root := by
    rw [← htree]
    rfl
  have hplaced : ∀ id < table.size, id ≠ root → (table.tree id).Placed t := by
    intro id hid hne
    refine forall_of_children hforest (fun _ h => h.children) ?_ _ id hid hne (Nat.le_refl _)
    intro child hchild
    refine hchildren _ ?_
    rw [Tree.children, hnode, Node.children_map]
    exact List.mem_map_of_mem hchild
  refine ⟨hforest, ?_, hplaced⟩
  intro id hid
  by_cases hne : id = root
  · subst hne
    rw [hnode, Node.inOrder_map, hspan] at hrow
    exact hrow
  · have := (hplaced id hid hne).row
    rw [tree_node hforest hid, Node.inOrder_map] at this
    exact this

/-! ## what a placed table says of its numbers -/

namespace Placed

theorem root_lt (h : Placed t table root) : root < table.size :=
  h.forest.root_lt (List.mem_singleton.mpr rfl)

theorem contained (h : Placed t table root) {id child : Nat} (hid : id < table.size)
    (hchild : child ∈ (table.node id).children) :
    (table.span id).start ≤ (table.span child).start ∧
      (table.span child).stop ≤ (table.span id).stop := by
  have hmem : table.tree child ∈ (table.node id).inOrder.map table.tree :=
    List.mem_map_of_mem (Node.mem_inOrder.mpr hchild)
  exact ⟨(h.row id hid).start_le _ hmem, (h.row id hid).le_stop _ hmem⟩

theorem child_ne_root (h : Placed t table root) {id child : Nat} (hid : id < table.size)
    (hchild : child ∈ (table.node id).children) : child < table.size ∧ child ≠ root := by
  have hlt := h.forest.child_lt id hid child hchild
  refine ⟨by omega, ?_⟩
  rintro rfl
  have hnone := h.forest.parent_of_root (List.mem_singleton.mpr rfl)
  rw [(h.forest.parent_iff child id).mpr ⟨hid, hchild⟩] at hnone
  exact nomatch hnone

theorem nonempty (h : Placed t table root) {id : Nat} (hid : id < table.size) (hne : id ≠ root) :
    (table.span id).start < (table.span id).stop :=
  (h.placed id hid hne).nonempty

theorem apart (h : Placed t table root) {id a b : Nat} (hid : id < table.size)
    (ha : a ∈ (table.node id).children) (hb : b ∈ (table.node id).children) (hab : a ≠ b) :
    (table.span a).stop ≤ (table.span b).start ∨ (table.span b).stop ≤ (table.span a).start := by
  have hp := (h.row id hid).ordered
  rw [List.pairwise_map] at hp
  exact Span.precedes_of_pairwise hp (Node.mem_inOrder.mpr ha) (Node.mem_inOrder.mpr hb) hab

theorem marked (h : Placed t table root) {id : Nat} (hid : id < table.size) (hne : id ≠ root) :
    ((table.node id).map table.tree).Marked t (table.span id) := by
  rw [← tree_node h.forest hid]
  exact (h.placed id hid hne).marked

theorem row_ids {ids : List Nat} {start stop : Nat}
    (h : Tree.InRow (ids.map table.tree) start stop) :
    ids.Pairwise (fun a b => (table.span a).Precedes (table.span b)) ∧
      ∀ id ∈ ids, start ≤ (table.span id).start ∧ (table.span id).stop ≤ stop := by
  have hordered := h.ordered
  rw [List.pairwise_map] at hordered
  refine ⟨hordered, fun id hid => ?_⟩
  exact ⟨h.start_le _ (List.mem_map_of_mem hid), h.le_stop _ (List.mem_map_of_mem hid)⟩

theorem preorder_ne_root (h : Placed t table root) {id x : Nat} (hid : id < table.size)
    (hne : id ≠ root) (hx : x ∈ table.preorder id) : x < table.size ∧ x ≠ root := by
  have hle := le_of_mem_preorder h.forest.grounded id hid hx
  refine ⟨by omega, ?_⟩
  rintro rfl
  obtain ⟨parent, _, hp⟩ := parent_mem_preorder h.forest.unshared id hid hx (fun heq => hne heq.symm)
  rw [h.forest.parent_of_root (List.mem_singleton.mpr rfl)] at hp
  exact nomatch hp

theorem preorder_contained (h : Placed t table root) {x : Nat} (id : Nat) :
    id < table.size → x ∈ table.preorder id →
      (table.span id).start ≤ (table.span x).start ∧ (table.span x).stop ≤ (table.span id).stop := by
  induction id using Nat.strongRecOn with
  | ind id ih =>
    intro hid hx
    rcases (mem_preorder h.forest.grounded hid).mp hx with rfl | ⟨child, hchild, hx⟩
    · exact ⟨Nat.le_refl _, Nat.le_refl _⟩
    · have hlt := h.forest.child_lt id hid child hchild
      have h₁ := h.contained hid hchild
      have h₂ := ih child hlt (by omega) hx
      omega

/-- the children of a number as the walk meets them: each ends before the next begins -/
theorem sortedChildren_ordered (h : Placed t table root) {id : Nat} (hid : id < table.size) :
    (table.sortedChildren id).Pairwise (fun a b => (table.span a).stop ≤ (table.span b).start) := by
  have hsorted : (table.sortedChildren id).Pairwise
      (fun a b => decide ((table.span a).start ≤ (table.span b).start) = true) := by
    refine sortBy_pairwise ?_ ?_ _
    · intro a b
      simp only [Bool.or_eq_true, decide_eq_true_eq]
      exact Nat.le_total _ _
    · intro a b c hab hbc
      simp only [decide_eq_true_eq] at hab hbc ⊢
      exact Nat.le_trans hab hbc
  refine (hsorted.and (sortedChildren_nodup h.forest.unshared hid)).imp_of_mem ?_
  intro a b ha hb hab
  obtain ⟨hstart, hne⟩ := hab
  have hstart := of_decide_eq_true hstart
  have ha := mem_sortedChildren.mp ha
  have hb := mem_sortedChildren.mp hb
  obtain ⟨hblt, hbne⟩ := h.child_ne_root hid hb
  have hbpos := h.nonempty hblt hbne
  rcases h.apart hid ha hb hne with h' | h'
  · exact h'
  · omega

theorem preorder_starts (h : Placed t table root) {id : Nat} (hid : id < table.size) :
    (table.preorder id).Pairwise (fun x y => (table.span x).start ≤ (table.span y).start) := by
  refine preorder_pairwise h.forest.grounded ?_ ?_ id hid
  · intro id hid child hchild x hx
    have hlt := h.forest.child_lt id hid child hchild
    have h₁ := h.contained hid hchild
    have h₂ := h.preorder_contained child (by omega) hx
    omega
  · intro id hid
    refine (h.sortedChildren_ordered hid).imp_of_mem ?_
    intro a b ha hb hab x hx y hy
    obtain ⟨halt, hane⟩ := h.child_ne_root hid (mem_sortedChildren.mp ha)
    obtain ⟨hblt, hbne⟩ := h.child_ne_root hid (mem_sortedChildren.mp hb)
    obtain ⟨hxlt, hxne⟩ := h.preorder_ne_root halt hane hx
    have h₁ := h.nonempty hxlt hxne
    have h₂ := h.preorder_contained a halt hx
    have h₃ := h.preorder_contained b hblt hy
    omega

end Placed

end NodeTable

/-! ## reading -/

/-- a tree that was read holds the statements of the whole text, placed and in a row -/
theorem Tree.read_program {t : Text} {tree : Tree} {comments : List Span}
    (h : Tree.read t = .ok (tree, comments)) :
    ∃ body, tree = ⟨.program body, ⟨0, t.size⟩⟩ ∧ (∀ child ∈ body, child.Placed t) ∧
      InRow body 0 t.size ∧ comments = t.comments := by
  obtain ⟨stream, body, s', hstream, hprogram, rfl, rfl⟩ := Tree.read_eq_ok.mp h
  have hvalid := TokenStream.cursor_valid hstream
  obtain ⟨hlists, -⟩ := (Parse.program_lists hvalid).of_ok hprogram
  have hs' := hlists.passes.valid hvalid
  refine ⟨body, rfl, hlists.placed, hlists.row.widen (Nat.zero_le _) ?_,
    (Text.comments_of_read hstream).symm⟩
  exact Text.isBoundary_le hs'.offset_boundary

/-- a placed table under a program that covers the whole text, with the comments of the text -/
structure Document.Placed (d : Document) : Prop where
  table : d.nodes.Placed d.text d.root
  program : ∃ body, d.node d.root = .program body
  covers : d.span d.root = ⟨0, d.text.size⟩
  comments_eq : d.comments = d.text.comments

namespace Document

theorem placed_of_read {t : Text} {d : Document} (h : Document.read t = .ok d) :
    d.text = t ∧ d.Placed := by
  obtain ⟨comments, htree, hd⟩ := read_eq_ok.mp h
  obtain ⟨body, hbody, hplaced, hrow, hcomments⟩ := Tree.read_program htree
  rw [hbody] at hd
  have htable := NodeTable.placed_pushTree ⟨.program body, ⟨0, t.size⟩⟩ hplaced hrow
  have hroot := (NodeTable.pushTree_grown .empty [] NodeTable.forest_empty
    ⟨.program body, ⟨0, t.size⟩⟩).2
  have hnode := NodeTable.tree_node htable.forest htable.root_lt
  rw [hroot] at hnode
  subst hd
  exact ⟨rfl, htable, Node.program_of_map hnode.symm, congrArg Tree.span hroot, hcomments⟩

namespace Placed
variable {d : Document} {id : Nat}

/-- a number with a construct of its own is in the table, and is the root only as a program -/
theorem inner (h : d.Placed) (hother : d.node id ≠ .other [])
    (hprogram : ∀ body, d.node id ≠ .program body) : id < d.nodes.size ∧ id ≠ d.root := by
  constructor
  · rcases Nat.lt_or_ge id d.nodes.size with hlt | hge
    · exact hlt
    · refine absurd ?_ hother
      rw [Document.node, NodeTable.node, NodeTable.row_of_size_le hge]
      rfl
  · rintro rfl
    obtain ⟨body, hbody⟩ := h.program
    exact hprogram body hbody

theorem marked (h : d.Placed) (hid : id < d.nodes.size) (hne : id ≠ d.root) {node : Node Nat}
    (hnode : d.node id = node) : (node.map d.nodes.tree).Marked d.text (d.span id) := by
  subst hnode
  exact h.table.marked hid hne

theorem child_ne_root (h : d.Placed) (hid : id < d.nodes.size) {node : Node Nat}
    (hnode : d.node id = node) {child : Nat} (hmem : child ∈ node.children) :
    child < d.nodes.size ∧ child ≠ d.root := by
  subst hnode
  exact h.table.child_ne_root hid hmem

theorem source_eq (h : d.Placed) (hid : id < d.nodes.size) (hne : id ≠ d.root) :
    ∃ text, d.text.slice? (d.span id) = some text ∧ d.source id = .ok text := by
  have hplaced := h.table.placed id hid hne
  obtain ⟨text, htext⟩ := Text.slice?_of_boundaries (Nat.le_of_lt hplaced.nonempty)
    hplaced.boundary.1 hplaced.boundary.2
  refine ⟨text, htext, ?_⟩
  rw [NodeTable.tree_span] at htext
  rw [source, Text.slice, Document.span, htext]

end Placed

end Document

end Collate
