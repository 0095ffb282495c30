import Collate.Text.Basic

/-!
# Nodes

The constructs of a source file that the rules look at.  A node is described once, over an
arbitrary type of children: the reader builds trees, where a child is again a tree, and the rules
walk a numbered table, where a child is a number.  A construct that no rule inspects is an
`other` node that keeps its children.

* `Node`           a construct with its children of type `α`;
* `Node.children`  its children, in the order in which they are listed;
* `Node.map`       the same construct over other children.
-/

namespace Collate

inductive ParameterKind where
  | required
  | optional
  | rest
  | keyword
  | optionalKeyword
  | keywordRest
  | block
  deriving DecidableEq, Repr

def ParameterKind.isKeyword : ParameterKind → Bool
  | .keyword | .optionalKeyword => true
  | _ => false

/-- the words that open a conditional or a loop -/
inductive ConditionalKeyword where
  | if_ | unless_ | elsif_ | while_ | until_
  deriving DecidableEq, Repr

/-- a construct with children of type `α` -/
inductive Node (α : Type) where
  | program (body : List α)
  /-- keys with values, between braces or as the keyword arguments of a list -/
  | literal (braces : Option Delimiters) (elements : List α)
  /-- a key with its value; the abbreviated form has none.  `colon` tells `key: value` from
  `key => value`. -/
  | pair (key : α) (value : Option α) (colon : Bool)
  | symbol (name : Text)
  | str (content : Text)
  | localVariable (name : Text)
  | splat (value : α)
  | doubleSplat (value : α)
  | call (receiver : Option α) (method : Text) (selector : Span) (args : List α)
  | block (owner : α) (params : List α) (body : List α)
  | definition (keyword : Span) (name : Text) (singleton : Option α) (params : List α)
      (body : List α)
  | parameter (kind : ParameterKind) (name : Option Text) (fallback : Option α)
  /-- a conditional or a loop; `modifier` marks the form that trails its body -/
  | conditional (keyword : ConditionalKeyword) (keywordSpan : Span) (modifier : Bool)
      (condition : α) (body : List α) (alternative : List α)
  | assignment (name : Text) (value : α)
  /-- any other construct -/
  | other (children : List α)
  deriving DecidableEq, Repr

namespace Node
variable {α β : Type}

/-- the children, in the order in which the construct lists them -/
def children : Node α → List α
  | program body => body
  | literal _ elements => elements
  | pair key value _ => key :: value.toList
  | symbol _ => []
  | str _ => []
  | localVariable _ => []
  | splat value => [value]
  | doubleSplat value => [value]
  | call receiver _ _ args => receiver.toList ++ args
  | block owner params body => owner :: (params ++ body)
  | definition _ _ singleton params body => singleton.toList ++ (params ++ body)
  | parameter _ _ fallback => fallback.toList
  | conditional _ _ _ condition body alternative => condition :: (body ++ alternative)
  | assignment _ value => [value]
  | other children => children

def map (f : α → β) : Node α → Node β
  | program body => program (body.map f)
  | literal braces elements => literal braces (elements.map f)
  | pair key value colon => pair (f key) (value.map f) colon
  | symbol name => symbol name
  | str content => str content
  | localVariable name => localVariable name
  | splat value => splat (f value)
  | doubleSplat value => doubleSplat (f value)
  | call receiver method selector args => call (receiver.map f) method selector (args.map f)
  | block owner params body => block (f owner) (params.map f) (body.map f)
  | definition keyword name singleton params body =>
    definition keyword name (singleton.map f) (params.map f) (body.map f)
  | parameter kind name fallback => parameter kind name (fallback.map f)
  | conditional keyword span modifier condition body alternative =>
    conditional keyword span modifier (f condition) (body.map f) (alternative.map f)
  | assignment name value => assignment name (f value)
  | other children => other (children.map f)

theorem toList_map_option (f : α → β) (x : Option α) : (x.map f).toList = x.toList.map f := by
  cases x <;> rfl

@[simp]
theorem children_map (f : α → β) (n : Node α) : (n.map f).children = n.children.map f := by
  cases n <;> simp [map, children, toList_map_option]

end Node

end Collate
