import Collate.Sequence.Order

/-!
# Eligible sequences

Which constructs have entries that can be put into another order.  A construct that is not eligible
is passed over in silence.

* `literalSequence`      the pairs of a literal: two or more, all keys symbols, no key twice;
* `enclosingCall`        the call among whose arguments a literal stands, also inside other literals;
* `eligibleLiteral`      a literal that no excluded call encloses;
* `hasUnsortedAncestor`  a literal around it will be put into order, and this one with it;
* `keywordSequence`, `symbolSequence`   the keyword and symbol arguments of a listed call;
* `parameterSequence`    the keyword parameters of a definition, if they stand on one line;
* `Sequence.hasLooseComment`   a comment in the container that belongs to no entry.
-/

namespace Collate

namespace Document

def literalSequence (d : Document) (id : Nat) : Attempt Sequence := do
  match d.node id with
  | .literal braces elements =>
    if elements.length < 2 then
      failure
    else
      let entries ← elements.mapM (Entry.ofPair d)
      let s : Sequence := ⟨entries, d.span id, braces, false⟩
      if s.hasDuplicateKeys then failure else return s
  | _ => failure

/-- the call at the end of a chain of pairs and literals that begins above `child` -/
def callAbove (d : Document) (child : Nat) : List Nat → Option Nat
  | [] => none
  | id :: rest =>
    match d.node id with
    | .pair .. | .literal .. => callAbove d id rest
    | .call _ _ _ args => if args.contains child then some id else none
    | _ => none

/-- the call among whose arguments a literal stands -/
def enclosingCall (d : Document) (id : Nat) : Option Nat :=
  d.callAbove id (d.ancestors id)

def isExcluded (d : Document) (id : Nat) (excluded : List Text) : Bool :=
  match (d.enclosingCall id).map d.node with
  | some (.call _ method _ _) => excluded.contains method
  | _ => false

/-- the pairs of a literal that no excluded call encloses -/
def eligibleLiteral (d : Document) (id : Nat) (excluded : List Text) : Attempt Sequence := do
  let s ← d.literalSequence id
  if d.isExcluded id excluded then failure else return s

end Document

/-- a comment lies in the container and in no entry -/
def Sequence.hasLooseComment (s : Sequence) (comments : List Span) : Bool :=
  comments.any (fun comment =>
    s.container.contains comment && !s.entries.any (fun entry => entry.span.contains comment))

/-- the entries are out of order, and no comment keeps them from being put into it -/
def Sequence.isCorrectable (s : Sequence) (comments : List Span) (policy : Policy) : Bool :=
  !isIdentity (policy.order s.entries) && !s.hasLooseComment comments

namespace Document

/-- one of the literals is eligible and will be put into order -/
def anyCorrectable (d : Document) (excluded : List Text) (policy : Policy) :
    List Nat → Except Fault Bool
  | [] => .ok false
  | id :: rest => do
    match ← (d.eligibleLiteral id excluded).run with
    | some s =>
      if s.isCorrectable d.comments policy then return true
      else anyCorrectable d excluded policy rest
    | none => anyCorrectable d excluded policy rest

/-- a literal around this one will be put into order -/
def hasUnsortedAncestor (d : Document) (id : Nat) (excluded : List Text) (policy : Policy) :
    Except Fault Bool :=
  d.anyCorrectable excluded policy (d.ancestors id)

/-- the arguments of a call without receiver whose method is on the list -/
def listedArguments (d : Document) (id : Nat) (methods : List Text) : Option (List Nat) :=
  match d.node id with
  | .call none method _ args => if methods.contains method then some args else none
  | _ => none

/-- the keyword arguments at the end of a listed call -/
def keywordSequence (d : Document) (id : Nat) (methods : List Text) : Attempt Sequence := do
  match (d.listedArguments id methods).bind List.getLast? with
  | some last =>
    let s ← d.literalSequence last
    return { s with container := s.range, braces := none }
  | none => failure

def isSplat (d : Document) (id : Nat) : Bool :=
  match d.node id with
  | .splat _ => true
  | _ => false

/-- the symbol arguments of a listed call without splats -/
def symbolSequence (d : Document) (id : Nat) (methods : List Text) : Attempt Sequence := do
  match d.listedArguments id methods with
  | some args =>
    if args.any d.isSplat then failure
    else Sequence.ofSiblings args (d.span id) (Entry.ofSymbol d)
  | none => failure

/-- the node is the parameter for all further keywords -/
def isKeywordRest (d : Document) (id : Nat) : Bool :=
  match d.node id with
  | .parameter .keywordRest _ _ => true
  | _ => false

def parameterSequence (d : Document) (id : Nat) : Attempt Sequence := do
  match d.node id with
  | .definition _ _ _ params _ =>
    if params.any d.isKeywordRest then
      failure
    else
      let s ← Sequence.ofSiblings params (d.span id) (Entry.ofParameter d)
      if d.text.isSingleLine s.container then return s else failure
  | _ => failure

end Document

end Collate
