import Collate.Node.Tree
import Collate.Proofs.Token.Comments

/-!
# Trees in their places

A tree is placed in a text when its span is not empty and ends on character boundaries and inside
no comment, its children are placed, lie inside it and follow each other, and the marks that its
construct keeps (braces, method names, reserved words, labels) stand where they were read.

* `Node.inOrder`   the children as they follow each other in the text;
* `Tree.InRow`     trees that follow each other between two offsets;
* `Node.Marked`    the marks of a construct;
* `Tree.Placed`    the whole tree is placed.
-/

namespace Collate

/-- The children as they follow each other in the text.  A trailing condition stands behind what
it governs, and all other constructs list their children in this order. -/
def Node.inOrder {α : Type} : Node α → List α
  | .conditional _ _ true condition body alternative => body ++ (alternative ++ [condition])
  | node => node.children

theorem Node.inOrder_perm {α : Type} (node : Node α) : node.inOrder.Perm node.children := by
  unfold inOrder
  split
  next condition body alternative =>
    show (body ++ (alternative ++ [condition])).Perm (condition :: (body ++ alternative))
    rw [← List.append_assoc]
    exact List.perm_append_comm
  next => exact List.Perm.refl _

theorem Node.mem_inOrder {α : Type} {node : Node α} {a : α} :
    a ∈ node.inOrder ↔ a ∈ node.children :=
  node.inOrder_perm.mem_iff

namespace Tree

/-- the trees follow each other between two offsets -/
structure InRow (trees : List Tree) (start stop : Nat) : Prop where
  ordered : trees.Pairwise (fun a b => a.span.Precedes b.span)
  start_le : ∀ tree ∈ trees, start ≤ tree.span.start
  le_stop : ∀ tree ∈ trees, tree.span.stop ≤ stop

namespace InRow

theorem nil (start stop : Nat) : InRow [] start stop :=
  ⟨List.Pairwise.nil, by simp, by simp⟩

theorem single {tree : Tree} {start stop : Nat} (hstart : start ≤ tree.span.start)
    (hstop : tree.span.stop ≤ stop) : InRow [tree] start stop :=
  ⟨List.pairwise_singleton _ _, by simpa using hstart, by simpa using hstop⟩

theorem widen {trees : List Tree} {start stop start' stop' : Nat} (h : InRow trees start stop)
    (hstart : start' ≤ start) (hstop : stop ≤ stop') : InRow trees start' stop' := by
  refine ⟨h.ordered, fun tree hmem => ?_, fun tree hmem => ?_⟩
  · exact Nat.le_trans hstart (h.start_le tree hmem)
  · exact Nat.le_trans (h.le_stop tree hmem) hstop

theorem append {a b : List Tree} {start mid mid' stop : Nat} (ha : InRow a start mid)
    (hb : InRow b mid' stop) (hmid : mid ≤ mid') (hstart : start ≤ mid') (hstop : mid ≤ stop) :
    InRow (a ++ b) start stop := by
  refine ⟨List.pairwise_append.mpr ⟨ha.ordered, hb.ordered, ?_⟩, ?_, ?_⟩
  · intro x hx y hy
    have h₁ := ha.le_stop x hx
    have h₂ := hb.start_le y hy
    show x.span.stop ≤ y.span.start
    omega
  · intro x hx
    rcases List.mem_append.mp hx with hx | hx
    · exact ha.start_le x hx
    · exact Nat.le_trans hstart (hb.start_le x hx)
  · intro x hx
    rcases List.mem_append.mp hx with hx | hx
    · exact Nat.le_trans (ha.le_stop x hx) hstop
    · exact hb.le_stop x hx

theorem cons {tree : Tree} {trees : List Tree} {start mid stop : Nat}
    (hstart : start ≤ tree.span.start) (hne : tree.span.start ≤ tree.span.stop)
    (hmid : tree.span.stop ≤ mid) (hstop : tree.span.stop ≤ stop) (h : InRow trees mid stop) :
    InRow (tree :: trees) start stop :=
  (single hstart (Nat.le_refl _)).append h hmid (by omega) hstop

theorem split {a b : List Tree} {tree : Tree} {start stop : Nat}
    (h : InRow (a ++ tree :: b) start stop) :
    InRow a start tree.span.start ∧ InRow b tree.span.stop stop := by
  obtain ⟨ha, hb, hab⟩ := List.pairwise_append.mp h.ordered
  obtain ⟨htree, hb⟩ := List.pairwise_cons.mp hb
  refine ⟨⟨ha, fun x hx => ?_, fun x hx => ?_⟩, ⟨hb, htree, fun x hx => ?_⟩⟩
  · exact h.start_le x (List.mem_append_left _ hx)
  · exact hab x hx tree List.mem_cons_self
  · exact h.le_stop x (List.mem_append_right _ (List.mem_cons_of_mem _ hx))

end InRow

end Tree

/-- Where the marks of a construct stand, given its span.  A literal without braces reaches from
its first element to its last one.  The value of a label begins with the token behind it, which
stands on the same line, and a default value stands behind the name of its parameter. -/
def Node.Marked (t : Text) (span : Span) : Node Tree → Prop
  | .literal (some braces) elements =>
    t.slice? braces.opening = some ['{'] ∧ t.slice? braces.closing = some ['}'] ∧
      braces.opening.start = span.start ∧ braces.closing.stop = span.stop ∧
      Tree.InRow elements braces.opening.stop braces.closing.start
  | .literal none elements =>
    elements.head?.map (·.span.start) = some span.start ∧
      elements.getLast?.map (·.span.stop) = some span.stop
  | .call receiver method selector args =>
    t.slice? selector = some method ∧ selector.start < selector.stop ∧
      span.start ≤ selector.start ∧ selector.stop ≤ span.stop ∧
      Tree.InRow receiver.toList span.start selector.start ∧ Tree.InRow args selector.stop span.stop
  | .definition keyword _ singleton params body =>
    (∃ text, t.slice? keyword = some text) ∧ keyword.start = span.start ∧
      Tree.InRow (singleton.toList ++ (params ++ body)) keyword.stop span.stop
  | .pair key (some value) true =>
    key.span.start = span.start ∧ value.span.stop = span.stop ∧ ∃ front label next rest name,
      t.tokens = front ++ label :: next :: rest ∧ key.node = .symbol name ∧
      label.kind = .label name ∧ label.span = ⟨span.start, key.span.stop + 1⟩ ∧
      next.newlineBefore = false ∧ next.span.start = value.span.start
  | .parameter _ _ (some fallback) => span.start < fallback.span.start
  | .localVariable name => ∃ token ∈ t.tokens, token.kind = .ident name ∧ token.span = span
  | _ => True

/-- the tree is placed in the text -/
inductive Tree.Placed (t : Text) : Tree → Prop
  | mk (node : Node Tree) (span : Span) (nonempty : span.start < span.stop)
      (boundary : t.isBoundary span.start = true ∧ t.isBoundary span.stop = true)
      (clear : t.Clear span.start ∧ t.Clear span.stop)
      (children : ∀ child ∈ node.children, Tree.Placed t child)
      (row : Tree.InRow node.inOrder span.start span.stop) (marked : node.Marked t span) :
      Tree.Placed t ⟨node, span⟩

namespace Tree.Placed
variable {t : Text} {tree : Tree}

theorem nonempty (h : tree.Placed t) : tree.span.start < tree.span.stop := by
  cases h with
  | mk node span nonempty => exact nonempty

theorem boundary (h : tree.Placed t) :
    t.isBoundary tree.span.start = true ∧ t.isBoundary tree.span.stop = true := by
  cases h with
  | mk node span nonempty boundary => exact boundary

theorem clear (h : tree.Placed t) : t.Clear tree.span.start ∧ t.Clear tree.span.stop := by
  cases h with
  | mk node span nonempty boundary clear => exact clear

theorem children (h : tree.Placed t) : ∀ child ∈ tree.children, child.Placed t := by
  cases h with
  | mk node span nonempty boundary clear children => exact children

theorem row (h : tree.Placed t) : InRow tree.node.inOrder tree.span.start tree.span.stop := by
  cases h with
  | mk node span nonempty boundary clear children row => exact row

theorem marked (h : tree.Placed t) : tree.node.Marked t tree.span := by
  cases h with
  | mk node span nonempty boundary clear children row marked => exact marked

theorem of_leaf {node : Node Tree} {span : Span} (hnode : node.children = [])
    (hmarked : node.Marked t span) (hne : span.start < span.stop)
    (hb : t.isBoundary span.start = true ∧ t.isBoundary span.stop = true)
    (hc : t.Clear span.start ∧ t.Clear span.stop) : Placed t ⟨node, span⟩ := by
  have hrow : node.inOrder = [] := by
    have := node.inOrder_perm
    rw [hnode] at this
    exact this.eq_nil
  exact mk node span hne hb hc (by simp [hnode]) (by rw [hrow]; exact InRow.nil _ _) hmarked

end Tree.Placed

end Collate
