import Collate.Node.Tree

/-!
# Outlines

The outline of a tree is what is left of it without its spans: kinds, names and nesting.  At chosen
offsets the values of labels are left out too, so that a tree can be compared with the tree of a text
in which these values are not written.

* `Tree.outline`   the tree without spans, and without the values of some labels;
* `Tree.bare`      the tree without spans;
* `Tree.Spoiled`   at one of these offsets stands something else than a local variable behind a label.
-/

namespace Collate

def Span.blank : Span :=
  ⟨0, 0⟩

mutual

/-- the tree without its spans, and without the values of the labels that begin at the offsets -/
def Tree.outline (omitted : Nat → Bool) : Tree → Tree
  | .mk node _ => .mk (Node.outline omitted node) .blank

/-- a construct without spans -/
def Node.outline (omitted : Nat → Bool) : Node Tree → Node Tree
  | .program body => .program (outlineAll omitted body)
  | .literal braces elements =>
    .literal (braces.map (fun _ => ⟨.blank, .blank⟩)) (outlineAll omitted elements)
  | .pair key value colon =>
    .pair (key.outline omitted)
      (if colon && omitted key.span.start then none else outlineOption omitted value) colon
  | .symbol name => .symbol name
  | .str content => .str content
  | .localVariable name => .localVariable name
  | .splat value => .splat (value.outline omitted)
  | .doubleSplat value => .doubleSplat (value.outline omitted)
  | .call receiver method _ args =>
    .call (outlineOption omitted receiver) method .blank (outlineAll omitted args)
  | .block owner params body =>
    .block (owner.outline omitted) (outlineAll omitted params) (outlineAll omitted body)
  | .definition _ name singleton params body =>
    .definition .blank name (outlineOption omitted singleton) (outlineAll omitted params)
      (outlineAll omitted body)
  | .parameter kind name fallback => .parameter kind name (outlineOption omitted fallback)
  | .conditional keyword _ modifier condition body alternative =>
    .conditional keyword .blank modifier (condition.outline omitted) (outlineAll omitted body)
      (outlineAll omitted alternative)
  | .assignment name value => .assignment name (value.outline omitted)
  | .other children => .other (outlineAll omitted children)

def outlineAll (omitted : Nat → Bool) : List Tree → List Tree
  | [] => []
  | tree :: trees => tree.outline omitted :: outlineAll omitted trees

def outlineOption (omitted : Nat → Bool) : Option Tree → Option Tree
  | none => none
  | some tree => some (tree.outline omitted)

end

def Tree.bare (tree : Tree) : Tree :=
  tree.outline (fun _ => false)

@[simp]
theorem outlineAll_eq (omitted : Nat → Bool) (trees : List Tree) :
    outlineAll omitted trees = trees.map (Tree.outline omitted) := by
  induction trees with
  | nil => rfl
  | cons tree trees ih => rw [outlineAll, ih, List.map_cons]

@[simp]
theorem outlineOption_eq (omitted : Nat → Bool) (tree : Option Tree) :
    outlineOption omitted tree = tree.map (Tree.outline omitted) := by
  cases tree <;> rfl

@[simp]
theorem Tree.outline_false : Tree.outline (fun _ => false) = Tree.bare := rfl

@[simp]
theorem Tree.outline_mk (omitted : Nat → Bool) (node : Node Tree) (span : Span) :
    (⟨node, span⟩ : Tree).outline omitted = ⟨node.outline omitted, .blank⟩ := rfl

@[simp]
theorem Tree.bare_mk (node : Node Tree) (span : Span) :
    (⟨node, span⟩ : Tree).bare = ⟨node.outline (fun _ => false), .blank⟩ := rfl

attribute [simp] Node.outline

/-! ## values that cannot be left out -/

/-- Somewhere in the tree, at one of the offsets, stands a label with a value that is no local
variable, or a parameter with a default value. -/
inductive Tree.Spoiled (omitted : Nat → Bool) : Tree → Prop
  | pair {key value : Tree} {span : Span} (hat : omitted key.span.start = true)
      (hvalue : ∀ name, value.node ≠ .localVariable name) :
      Spoiled omitted ⟨.pair key (some value) true, span⟩
  | parameter {kind : ParameterKind} {name : Option Text} {fallback : Tree} {span : Span}
      (hat : omitted span.start = true) : Spoiled omitted ⟨.parameter kind name (some fallback), span⟩
  | child {node : Node Tree} {span : Span} {child : Tree} (hmem : child ∈ node.children)
      (h : Spoiled omitted child) : Spoiled omitted ⟨node, span⟩

/-- one of the trees is spoiled -/
def Tree.AnySpoiled (omitted : Nat → Bool) (trees : List Tree) : Prop :=
  ∃ tree ∈ trees, tree.Spoiled omitted

theorem Tree.AnySpoiled.mono {omitted : Nat → Bool} {trees more : List Tree}
    (h : AnySpoiled omitted trees) (hsub : trees ⊆ more) : AnySpoiled omitted more := by
  obtain ⟨tree, hmem, hspoiled⟩ := h
  exact ⟨tree, hsub hmem, hspoiled⟩

theorem Tree.AnySpoiled.parent {omitted : Nat → Bool} {trees : List Tree} {node : Node Tree}
    {span : Span} (h : AnySpoiled omitted trees) (hsub : trees ⊆ node.children) :
    Tree.Spoiled omitted ⟨node, span⟩ := by
  obtain ⟨tree, hmem, hspoiled⟩ := h
  exact .child (hsub hmem) hspoiled

end Collate
