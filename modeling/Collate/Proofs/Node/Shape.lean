import Collate.Proofs.Node.Forest
import Collate.Proofs.Node.Outline

/-!
# Tables without spans

The shape of a construct is all of it but its spans: kind, names, flags and children.  Two trees that
differ in their spans only are numbered alike, so their tables have the same shapes and parents at all
numbers.

* `Node.shape`, `NodeTable.shape`   a construct, and a whole table, without spans;
* `NodeTable.pushTree_bare`         the shape of the table of a tree is the table of the bare tree.
-/

namespace Collate

def Node.shape {α : Type} : Node α → Node α
  | .literal braces elements => .literal (braces.map (fun _ => ⟨.blank, .blank⟩)) elements
  | .call receiver method _ args => .call receiver method .blank args
  | .definition _ name singleton params body => .definition .blank name singleton params body
  | .conditional keyword _ modifier condition body alternative =>
    .conditional keyword .blank modifier condition body alternative
  | node => node

theorem Node.children_shape {α : Type} (node : Node α) : node.shape.children = node.children := by
  cases node <;> rfl

theorem Tree.isRun_bare (tree : Tree) : tree.bare.isRun = tree.isRun := by
  obtain ⟨node, span⟩ := tree
  cases node with
  | literal braces elements => cases braces <;> rfl
  | _ => rfl

namespace NodeTable

/-- a row without spans -/
def Row.shape (row : Row) : Row :=
  ⟨row.node.shape, .blank, row.parent⟩

def shape (table : NodeTable) : NodeTable :=
  ⟨table.rows.map Row.shape⟩

theorem size_shape (table : NodeTable) : table.shape.size = table.size :=
  Array.size_map

theorem row_shape (table : NodeTable) (id : Nat) : table.shape.row id = (table.row id).shape := by
  rw [row, row, shape, Array.getD_eq_getD_getElem?, Array.getD_eq_getD_getElem?, Array.getElem?_map]
  cases table.rows[id]? <;> rfl

theorem node_shape (table : NodeTable) (id : Nat) : table.shape.node id = (table.node id).shape := by
  rw [node, row_shape]
  rfl

theorem parent_shape (table : NodeTable) (id : Nat) : table.shape.parent id = table.parent id := by
  rw [parent, row_shape]
  rfl

/-! ## growing -/

theorem adopt_shape (rows : Array Row) (parent : Nat) (children : List Nat) :
    adopt (rows.map Row.shape) parent children = (adopt rows parent children).map Row.shape := by
  refine Array.ext_getElem? (fun id => ?_)
  rw [Array.getElem?_map, adopt_getElem?, adopt_getElem?, Array.getElem?_map, Option.map_map, Option.map_map]
  refine congrArg (fun f => Option.map f rows[id]?) (funext fun row => ?_)
  by_cases hmem : id ∈ children <;> simp [hmem, Row.shape]

theorem push_shape (table : NodeTable) (node : Node Nat) (span : Span) :
    table.shape.push node.shape .blank = (table.push node span).shape := by
  unfold push
  rw [size_shape, Node.children_shape]
  show (⟨(adopt (table.rows.map Row.shape) table.size node.children).push _⟩ : NodeTable) = _
  rw [adopt_shape, shape, Array.map_push]
  rfl

def Shaped {α : Type} (f : α → α) (grown : NodeTable × α) : NodeTable × α :=
  (grown.1.shape, f grown.2)

mutual

theorem pushTree_bare (table : NodeTable) :
    (tree : Tree) → table.shape.pushTree tree.bare = Shaped id (table.pushTree tree)
  | .mk node span => by
    have hnode := pushNode_bare table node
    simp only [Tree.bare_mk, pushTree, hnode, Shaped, size_shape, push_shape _ _ span, id]

theorem pushNode_bare (table : NodeTable) : (node : Node Tree) →
    table.shape.pushNode (node.outline (fun _ => false)) = Shaped Node.shape (table.pushNode node)
  | .program body => by
    simp only [Node.outline, pushNode, pushAll_bare table body, Shaped, Node.shape, id]
  | .pair key value colon => by
    simp only [Node.outline, Bool.and_false, Bool.false_eq_true, if_false, Tree.outline_false, pushNode,
      pushTree_bare table key, pushOption_bare _ value, Shaped, Node.shape, id]
  | .literal braces elements => by
    simp only [Node.outline, pushNode, pushAll_bare table elements, Shaped, Node.shape, id]
  | .symbol _ => rfl
  | .str _ => rfl
  | .localVariable _ => rfl
  | .splat value => by
    simp only [Node.outline, Tree.outline_false, pushNode, pushTree_bare table value, Shaped, Node.shape, id]
  | .doubleSplat value => by
    simp only [Node.outline, Tree.outline_false, pushNode, pushTree_bare table value, Shaped, Node.shape, id]
  | .call receiver _ _ args => by
    simp only [Node.outline, pushNode, pushOption_bare table receiver, pushAll_bare _ args, Shaped,
      Node.shape, id]
  | .block owner params body => by
    simp only [Node.outline, Tree.outline_false, pushNode, pushTree_bare table owner, pushAll_bare _ params,
      pushAll_bare _ body, Shaped, Node.shape, id]
  | .definition _ _ singleton params body => by
    simp only [Node.outline, pushNode, pushOption_bare table singleton, pushAll_bare _ params,
      pushAll_bare _ body, Shaped, Node.shape, id]
  | .parameter _ _ fallback => by
    simp only [Node.outline, pushNode, pushOption_bare table fallback, Shaped, Node.shape, id]
  | .conditional _ _ true condition body alternative => by
    simp only [Node.outline, Tree.outline_false, pushNode, pushAll_bare table body,
      pushTree_bare _ condition, pushAll_bare _ alternative, Shaped, Node.shape, id]
  | .conditional _ _ false condition body alternative => by
    simp only [Node.outline, Tree.outline_false, pushNode, pushTree_bare table condition,
      pushAll_bare _ body, pushAll_bare _ alternative, Shaped, Node.shape, id]
  | .assignment _ value => by
    simp only [Node.outline, Tree.outline_false, pushNode, pushTree_bare table value, Shaped, Node.shape, id]
  | .other children => by
    simp only [Node.outline, pushNode, pushAll_bare table children, Shaped, Node.shape, id]

theorem pushAll_bare (table : NodeTable) : (trees : List Tree) →
    table.shape.pushAll (outlineAll (fun _ => false) trees) = Shaped id (table.pushAll trees)
  | [] => rfl
  | tree :: trees => by
    rcases cons_cases tree trees with ⟨elements, span, next, rest, rfl, rfl⟩ | hcons
    · have hpush := push_shape ((table.pushAll elements).1.pushTree next).1
        (.literal none (table.pushAll elements).2) span
      simp only [Node.shape, Option.map_none] at hpush
      simp only [outlineAll, Tree.outline_false, Tree.bare_mk, Node.outline, Option.map_none, pushAll,
        pushAll_bare table elements, pushTree_bare _ next, hpush, pushAll_bare _ rest, Shaped, size_shape, id]
    · have hbare : tree.bare.isRun = false ∨ outlineAll (fun _ => false) trees = [] := by
        rw [Tree.isRun_bare, outlineAll_eq, List.map_eq_nil_iff]
        exact hcons
      rw [outlineAll, Tree.outline_false, pushAll_cons _ hbare, pushAll_cons _ hcons, pushTree_bare table tree]
      simp only [Shaped, pushAll_bare _ trees, id]

theorem pushOption_bare (table : NodeTable) : (tree : Option Tree) →
    table.shape.pushOption (outlineOption (fun _ => false) tree) = Shaped id (table.pushOption tree)
  | none => rfl
  | some tree => by
    simp only [outlineOption, Tree.outline_false, pushOption, pushTree_bare table tree, Shaped, id]

end

theorem shape_pushTree {tree tree' : Tree} (h : tree.bare = tree'.bare) :
    (empty.pushTree tree).1.shape = (empty.pushTree tree').1.shape ∧
      (empty.pushTree tree).2 = (empty.pushTree tree').2 := by
  have hbare := pushTree_bare empty tree
  rw [h, pushTree_bare empty tree'] at hbare
  obtain ⟨htable, hroot⟩ := Prod.mk.inj hbare
  exact ⟨htable.symm, hroot.symm⟩

end NodeTable

end Collate
