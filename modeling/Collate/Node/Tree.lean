import Collate.Node.Basic

/-!
# Syntax trees

What the reader builds: a construct with its span, whose children are again trees.

* `Tree.node`, `Tree.span`   the construct at the top and the span of the whole;
* `Tree.children`            the trees directly below;
* `Tree.leaf`                a construct without children that no rule inspects.
-/

namespace Collate

/-- a construct, the span it was read from, and its children -/
inductive Tree where
  | mk (node : Node Tree) (span : Span)

namespace Tree

def node : Tree → Node Tree
  | mk node _ => node

def span : Tree → Span
  | mk _ span => span

def children (t : Tree) : List Tree :=
  t.node.children

/-- a construct without children that no rule inspects -/
def leaf (span : Span) : Tree :=
  ⟨.other [], span⟩

end Tree

end Collate
