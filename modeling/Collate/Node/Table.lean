import Collate.Node.Tree
import Collate.Sorting

/-!
# Numbered nodes

The rules walk a table of nodes that name their children by number and know their parent.  A table
grows by `push`: the new node takes the next number and becomes the parent of every child it names,
so a node that is named twice keeps the parent that came last.  Numbers that are kept in 32 bits are
given out again behind the last one, which `pushAs` knows of.

* `NodeTable.push`        one more node;
* `NodeTable.pushAs`      the same where numbers may be short;
* `NodeTable.pushTree`    a whole tree, in the order in which its constructs are completed;
* `NodeTable.preorder`    the nodes below a number, a parent before its children and the children
                          in the order of their starts;
* `NodeTable.ancestors`   the parents of a node, from the nearest on.

Children are named by smaller numbers than their parent, which bounds the depth of `preorder` and
the length of `ancestors`; both stop at that bound.  A number that the table does not have stands
for an empty construct at the start of the text.
-/

namespace Collate

structure NodeTable.Row where
  node : Node Nat
  span : Span
  parent : Option Nat
  deriving DecidableEq, Repr

structure NodeTable where
  rows : Array NodeTable.Row
  deriving DecidableEq, Repr

/-- numbers that are kept in 32 bits stay below this -/
def numberLimit : Nat := 4294967296

/-- how many numbers there are for nodes -/
inductive Numbering where
  | unbounded
  /-- as many as fit into 32 bits -/
  | short
  deriving DecidableEq, Repr

/-- the number of the node of an index -/
def Numbering.number : Numbering → Nat → Nat
  | unbounded, index => index
  | short, index => index % numberLimit

/-- so many nodes have numbers of their own -/
def Numbering.Counts (numbering : Numbering) (count : Nat) : Prop :=
  numbering = .short → count ≤ numberLimit

namespace NodeTable

def empty : NodeTable :=
  ⟨#[]⟩

def size (t : NodeTable) : Nat :=
  t.rows.size

/-- what stands for a number that the table does not have -/
def Row.absent : Row :=
  ⟨.other [], ⟨0, 0⟩, none⟩

def row (t : NodeTable) (id : Nat) : Row :=
  t.rows.getD id .absent

def node (t : NodeTable) (id : Nat) : Node Nat :=
  (t.row id).node

def span (t : NodeTable) (id : Nat) : Span :=
  (t.row id).span

def parent (t : NodeTable) (id : Nat) : Option Nat :=
  (t.row id).parent

/-- the rows with the parent of every named node set -/
def adopt (rows : Array Row) (parent : Nat) (children : List Nat) : Array Row :=
  children.foldl (fun rows child => rows.modify child (fun r => { r with parent := some parent }))
    rows

/-- the table with one more node, whose number is the old size -/
def push (t : NodeTable) (node : Node Nat) (span : Span) : NodeTable :=
  ⟨(adopt t.rows t.size node.children).push ⟨node, span, none⟩⟩

/-- the table with one more node, whose number is that of the old size -/
def pushAs (numbering : Numbering) (t : NodeTable) (node : Node Nat) (span : Span) : NodeTable :=
  ⟨(adopt t.rows (numbering.number t.size) node.children).push ⟨node, span, none⟩⟩

theorem adopt_size (rows : Array Row) (parent : Nat) (children : List Nat) :
    (adopt rows parent children).size = rows.size := by
  induction children generalizing rows with
  | nil => rfl
  | cons child children ih => exact (ih _).trans Array.size_modify

theorem size_pushAs (t : NodeTable) (numbering : Numbering) (node : Node Nat) (span : Span) :
    (t.pushAs numbering node span).size = t.size + 1 := by
  rw [size, size, pushAs, Array.size_push, adopt_size]

theorem size_le_pushAs (t : NodeTable) (numbering : Numbering) (node : Node Nat) (span : Span) :
    t.size ≤ (t.pushAs numbering node span).size := by
  rw [size_pushAs]
  exact Nat.le_succ _

/-! ## trees

The constructs of a source text are completed from the left to the right, with two exceptions.  The body
of a condition that trails it stands in front of the condition, and a literal without braces is
completed behind the argument that ends its run. -/

mutual

/-- the table with a whole tree, and the number of its top -/
def pushTree (t : NodeTable) : Tree → NodeTable × Nat
  | .mk node span =>
    let (t, node) := pushNode t node
    (t.push node span, t.size)

def pushNode (t : NodeTable) : Node Tree → NodeTable × Node Nat
  | .program body =>
    let (t, body) := pushAll t body
    (t, .program body)
  | .literal braces elements =>
    let (t, elements) := pushAll t elements
    (t, .literal braces elements)
  | .pair key value colon =>
    let (t, key) := pushTree t key
    let (t, value) := pushOption t value
    (t, .pair key value colon)
  | .symbol name => (t, .symbol name)
  | .str content => (t, .str content)
  | .localVariable name => (t, .localVariable name)
  | .splat value =>
    let (t, value) := pushTree t value
    (t, .splat value)
  | .doubleSplat value =>
    let (t, value) := pushTree t value
    (t, .doubleSplat value)
  | .call receiver method selector args =>
    let (t, receiver) := pushOption t receiver
    let (t, args) := pushAll t args
    (t, .call receiver method selector args)
  | .block owner params body =>
    let (t, owner) := pushTree t owner
    let (t, params) := pushAll t params
    let (t, body) := pushAll t body
    (t, .block owner params body)
  | .definition keyword name singleton params body =>
    let (t, singleton) := pushOption t singleton
    let (t, params) := pushAll t params
    let (t, body) := pushAll t body
    (t, .definition keyword name singleton params body)
  | .parameter kind name fallback =>
    let (t, fallback) := pushOption t fallback
    (t, .parameter kind name fallback)
  | .conditional keyword keywordSpan true condition body alternative =>
    let (t, body) := pushAll t body
    let (t, condition) := pushTree t condition
    let (t, alternative) := pushAll t alternative
    (t, .conditional keyword keywordSpan true condition body alternative)
  | .conditional keyword keywordSpan false condition body alternative =>
    let (t, condition) := pushTree t condition
    let (t, body) := pushAll t body
    let (t, alternative) := pushAll t alternative
    (t, .conditional keyword keywordSpan false condition body alternative)
  | .assignment name value =>
    let (t, value) := pushTree t value
    (t, .assignment name value)
  | .other children =>
    let (t, children) := pushAll t children
    (t, .other children)

def pushAll (t : NodeTable) : List Tree → NodeTable × List Nat
  | [] => (t, [])
  | ⟨.literal none elements, span⟩ :: next :: trees =>
    let (t, elements) := pushAll t elements
    let (t, nextId) := pushTree t next
    let id := t.size
    let (t, ids) := pushAll (t.push (.literal none elements) span) trees
    (t, id :: nextId :: ids)
  | tree :: trees =>
    let (t, id) := pushTree t tree
    let (t, ids) := pushAll t trees
    (t, id :: ids)

def pushOption (t : NodeTable) : Option Tree → NodeTable × Option Nat
  | none => (t, none)
  | some tree =>
    let (t, id) := pushTree t tree
    (t, some id)

end

/-! ## walks -/

/-- the children of a node in the order of their starts -/
def sortedChildren (t : NodeTable) (id : Nat) : List Nat :=
  sortBy (fun a b => decide ((t.span a).start ≤ (t.span b).start)) (t.node id).children

/-- the nodes below a number, itself first, down to a depth -/
def below (t : NodeTable) : Nat → Nat → List Nat
  | 0, _ => []
  | depth + 1, id => id :: (t.sortedChildren id).flatMap (below t depth)

def preorder (t : NodeTable) (root : Nat) : List Nat :=
  t.below (root + 1) root

/-- the chain of parents from a number on, up to a length -/
def chain (t : NodeTable) : Nat → Option Nat → List Nat
  | 0, _ => []
  | _ + 1, none => []
  | length + 1, some id => id :: chain t length (t.parent id)

/-- the parents of a node, from the nearest on -/
def ancestors (t : NodeTable) (id : Nat) : List Nat :=
  t.chain t.size (t.parent id)

end NodeTable

end Collate
