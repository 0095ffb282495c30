import Collate.Build.Statement
import Collate.Token.Stream

/-!
# Documents

A document is a source text with its numbered nodes and its comments.  It is read from text, or
put together by hand from a table.

* `Document.build`      the document of a text, as a program with 32 bits for its numbers reads it;
* `Document.read`       the same with all the numbers it needs;
* `Tree.read`           the tree of a text and its comments, as the grammar has it;
* `Document.ofTree`     the document of that tree;
* `Document.source`     the text of a node;
* `Document.preorder`   all nodes below the root, a parent before its children.
-/

namespace Collate

/-- a source text with its numbered nodes and its comments -/
structure Document where
  text : Text
  nodes : NodeTable
  root : Nat
  comments : List Span
  deriving DecidableEq, Repr

/-- where the program stops with an error of the reader -/
def Profile.stop (profile : Profile) (t : Text) (e : ReadError) : Stop :=
  match t.place profile.overflow e.offset with
  | .ok place => .refused e place
  | .error fault => .fault fault

/-- an error of the reader; a fault counts as a lack of steps -/
def Stop.error : Stop → ReadError
  | .refused error _ => error
  | .fault _ => ⟨.outOfSteps, 0⟩

/-- the program with 32 bits for its numbers, which stops when a column overflows -/
def Profile.strict : Profile :=
  ⟨.short, .stop⟩

/-- where the program begins to read -/
def TokenStream.builder (profile : Profile) (t : Text) (stream : TokenStream) : Builder :=
  ⟨profile, t, (stream.tokens ++ [stream.eof]).toArray, 0, .empty, []⟩

/-- the tree of a text, and the spans of its comments -/
def Tree.read (t : Text) : Except ReadError (Tree × List Span) := do
  let stream ← TokenStream.read t
  let (body, _) ← Parse.program.run ⟨stream.tokens, stream.eof, []⟩
  return (⟨.program body, ⟨0, t.size⟩⟩, stream.comments)

namespace Document

def ofTree (t : Text) (tree : Tree) (comments : List Span) : Document :=
  let (nodes, root) := NodeTable.empty.pushTree tree
  ⟨t, nodes, root, comments⟩

/-- the document of a text, or where the program stops -/
def build (profile : Profile) (t : Text) : Except Stop Document :=
  match TokenStream.read t with
  | .error e => .error (profile.stop t e)
  | .ok stream =>
    match Build.program.exec (stream.builder profile t) with
    | (.error stop, _) => .error stop
    | (.ok root, b) => .ok ⟨t, b.nodes, root, stream.comments⟩

/-- the nodes that the program has pushed when it stops -/
def nodesBuilt (profile : Profile) (t : Text) : NodeTable :=
  match TokenStream.read t with
  | .error _ => .empty
  | .ok stream => (Build.program.exec (stream.builder profile t)).2.nodes

def read (t : Text) : Except ReadError Document :=
  (build ⟨.unbounded, .cut⟩ t).mapError Stop.error

def node (d : Document) (id : Nat) : Node Nat :=
  d.nodes.node id

def span (d : Document) (id : Nat) : Span :=
  d.nodes.span id

def parent (d : Document) (id : Nat) : Option Nat :=
  d.nodes.parent id

/-- the parents of a node, from the nearest on -/
def ancestors (d : Document) (id : Nat) : List Nat :=
  d.nodes.ancestors id

/-- the nodes below the root, a parent before its children -/
def preorder (d : Document) : List Nat :=
  d.nodes.preorder d.root

def source (d : Document) (id : Nat) : Except Fault Text :=
  d.text.slice (d.span id)

/-- a comment begins on a line -/
def hasCommentOn (d : Document) (line : Nat) : Bool :=
  d.comments.any (fun comment => d.text.lineOf comment.start == line)

def symbolName (d : Document) (id : Nat) : Option Text :=
  match d.node id with
  | .symbol name => some name
  | _ => none

end Document

end Collate
