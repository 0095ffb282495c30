import Collate.Proofs.Document.Placed

/-!
# Scopes

Programs, definitions, classes, modules and blocks read a part of their children with names of their
own.  A name is brought in sight by an assignment, before its value is read, and by a parameter, behind
its default value.  Here is how the names in sight go through a tree, and what that says of the names in
it.

* `Text.tokenFrom`       the first token from an offset on;
* `Node.scope?`          the scope that a construct opens, with the children inside and outside of it;
* `Node.Settled`         variables are in sight, and names of calls without arguments are not;
* `Tree.Resolved`        the names in sight before and behind a tree that is settled throughout;
* `Tree.Owns`            a construct in a tree stands for an identifier.
-/

namespace Collate

/-! ## tokens of a text -/

namespace Text

def tokenFrom (t : Text) (offset : Nat) : Option Token :=
  t.tokens.find? (fun token => decide (offset ≤ token.span.start))

/-- an opening parenthesis touches what ends at the offset -/
def parenTouches (t : Text) (offset : Nat) : Bool :=
  match t.tokenFrom offset with
  | some token => decide (token.kind = .leftParen) && !token.spaceBefore
  | none => false

/-- the token is a name behind a dot or a double colon -/
def Selects (t : Text) (token : Token) : Prop :=
  ∃ front mark rest, t.tokens = front ++ mark :: token :: rest ∧
    (mark.kind = .dot ∨ mark.kind = .safeDot ∨ mark.kind = .scope)

/-- the first token from an offset on, when the tokens in front of it begin before the offset -/
theorem tokenFrom_eq {t : Text} {front rest : List Token} {offset : Nat} (h : t.tokens = front ++ rest)
    (hfront : ∀ token ∈ front, token.span.start < offset)
    (hrest : ∀ token ∈ rest, offset ≤ token.span.start) : t.tokenFrom offset = rest.head? := by
  have hnone : front.find? (fun token => decide (offset ≤ token.span.start)) = none :=
    List.find?_eq_none.mpr fun token hmem => by simpa using hfront token hmem
  rw [tokenFrom, h, List.find?_append, hnone, Option.none_or]
  cases rest with
  | nil => rfl
  | cons token rest =>
    rw [List.find?_cons_of_pos (by simpa using hrest token List.mem_cons_self)]
    rfl

theorem tokenFrom_start {t : Text} {token : Token} (hmem : token ∈ t.tokens) :
    t.tokenFrom token.span.start = some token := by
  obtain ⟨hfit, hordered⟩ := t.tokens_fit
  obtain ⟨front, rest, htokens⟩ := List.append_of_mem hmem
  rw [htokens] at hfit hordered
  obtain ⟨-, hbehind, hbefore⟩ := List.pairwise_append.mp hordered
  refine tokenFrom_eq htokens (fun other hother => ?_) fun other hother => ?_
  · have h₁ : other.span.stop ≤ token.span.start := hbefore other hother token List.mem_cons_self
    have h₂ := (hfit other (List.mem_append_left _ hother)).nonempty
    omega
  · rcases List.mem_cons.mp hother with rfl | hother
    · exact Nat.le_refl _
    · have h₁ : token.span.stop ≤ other.span.start := (List.pairwise_cons.mp hbehind).1 other hother
      have h₂ := (hfit token (by simp)).nonempty
      omega

end Text

/-! ## scopes -/

/-- the scope that a construct opens: whether it sees the names around it, and the children that are
read outside and inside of it -/
structure Scope (α : Type) where
  sight : Parse.Sight
  outside : List α
  inside : List α

namespace Scope
variable {α β : Type}

/-- the same scope over other children -/
def map (f : α → β) (scope : Scope α) : Scope β :=
  ⟨scope.sight, scope.outside.map f, scope.inside.map f⟩

/-- the names in sight at the beginning, given those behind the children outside -/
def names (scope : Scope α) (outer : List Text) : List Text :=
  if scope.sight = .closed then [] else outer

end Scope

namespace Node
variable {α β : Type}

/-- The scope that a construct opens, given the places of its children.  A class or module is known by
its reserved word, in front of its name; a construct that is read on from a class begins where the class
does.  The name of a class, and the superclass behind `<`, are outside. -/
def scope? (t : Text) (place : α → Span) (span : Span) : Node α → Option (Scope α)
  | .program body => some ⟨.closed, [], body⟩
  | .definition _ _ singleton params body => some ⟨.closed, singleton.toList, params ++ body⟩
  | .block owner params body => some ⟨.through, [owner], params ++ body⟩
  | .other (name :: rest) =>
    if (place name).start = span.start then
      none
    else
      match (t.tokenFrom span.start).map Token.kind with
      | some (.keyword .class_) =>
        if (t.tokenFrom (place name).stop).map Token.kind = some (.op ['<']) then
          some ⟨.closed, name :: rest.take 1, rest.drop 1⟩
        else
          some ⟨.closed, [name], rest⟩
      | some (.keyword .module_) => some ⟨.closed, [name], rest⟩
      | _ => none
  | _ => none

theorem scope?_map (t : Text) (f : α → β) (place : β → Span) (span : Span) (node : Node α) :
    (node.map f).scope? t place span = (node.scope? t (place ∘ f) span).map (Scope.map f) := by
  cases node with
  | program body => rfl
  | definition keyword name singleton params body =>
    simp [map, scope?, Scope.map, toList_map_option]
  | block owner params body => simp [map, scope?, Scope.map]
  | other children =>
    cases children with
    | nil => rfl
    | cons name rest =>
      simp only [map, scope?, List.map_cons, Function.comp_apply]
      split
      next => rfl
      next =>
        split
        next =>
          split
          next => simp [Scope.map, List.map_take]
          next => rfl
        next => rfl
        next => rfl
  | _ => rfl

theorem inOrder_of_scope? {t : Text} {place : α → Span} {span : Span} {node : Node α} {scope : Scope α}
    (h : node.scope? t place span = some scope) : node.inOrder = scope.outside ++ scope.inside := by
  unfold scope? at h
  split at h
  next => rw [← Option.some.inj h]; rfl
  next => rw [← Option.some.inj h]; rfl
  next => rw [← Option.some.inj h]; rfl
  next name rest =>
    split at h
    next => cases h
    next =>
      split at h
      next =>
        split at h
        next =>
          rw [← Option.some.inj h]
          exact congrArg (name :: ·) (List.take_append_drop 1 rest).symm
        next => rw [← Option.some.inj h]; rfl
      next => rw [← Option.some.inj h]; rfl
      next => cases h
  next => cases h

theorem scope?_other_of_start {t : Text} {place : α → Span} {span : Span} {name : α} {rest : List α}
    (h : (place name).start = span.start) : (Node.other (name :: rest)).scope? t place span = none :=
  if_pos h

theorem scope?_other_of_kind {t : Text} {place : α → Span} {span : Span} {children : List α}
    {token : Token} (h : t.tokenFrom span.start = some token) (hclass : token.kind ≠ .keyword .class_)
    (hmodule : token.kind ≠ .keyword .module_) :
    (Node.other children).scope? t place span = none := by
  cases children with
  | nil => rfl
  | cons name rest =>
    simp only [scope?, h, Option.map_some]
    split
    next => rfl
    next =>
      split
      next hk => exact absurd (Option.some.inj hk) hclass
      next hk => exact absurd (Option.some.inj hk) hmodule
      next => rfl

/-! ## names -/

/-- the name that a construct brings in sight before its children are read -/
def opening : Node α → List Text
  | .assignment name _ => [name]
  | _ => []

/-- the name that a construct brings in sight behind its children -/
def closing : Node α → List Text
  | .parameter _ name _ => name.toList
  | _ => []

theorem eq_assignment_of_opening {name : Text} {node : Node α} (h : name ∈ node.opening) :
    ∃ value, node = .assignment name value := by
  cases node with
  | assignment target value =>
    obtain rfl := List.mem_singleton.mp h
    exact ⟨value, rfl⟩
  | _ => cases h

theorem eq_parameter_of_closing {name : Text} {node : Node α} (h : name ∈ node.closing) :
    ∃ kind fallback, node = .parameter kind (some name) fallback := by
  cases node with
  | parameter kind held fallback =>
    obtain rfl := Option.mem_toList.mp h
    exact ⟨kind, fallback, rfl⟩
  | _ => cases h

/-- A local variable is in sight and no parenthesis touches it.  A name without receiver is that of a
call when it is not in sight, or when a parenthesis touches it, and the call starts with it.  The value of
an assignment stands behind its name. -/
def Settled (t : Text) (place : α → Span) (span : Span) (names : List Text) : Node α → Prop
  | .localVariable name => name ∈ names ∧ t.parenTouches span.stop = false
  | .call none method selector _ => span.start = selector.start ∧
    ∀ token, t.tokenFrom selector.start = some token → token.kind = .ident method →
      t.parenTouches selector.stop = false → method ∉ names
  | .assignment _ value => span.start < (place value).start
  | _ => True

/-- The construct stands for an identifier, given its place: as the variable, the name of the call, the
target of the assignment, or the name of the parameter or definition.  The name of a parameter is its
first token, or its last one behind a mark. -/
def Owns (t : Text) (span : Span) (name : Text) (place : Span) : Node α → Prop
  | .localVariable held => held = name ∧ span = place
  | .call none method selector _ => method = name ∧ selector = place
  | .assignment target _ => target = name ∧ span.start = place.start
  | .parameter _ (some held) fallback =>
    held = name ∧ (span.start = place.start ∨ (fallback.isNone = true ∧ span.stop = place.stop))
  | .definition keyword _ none _ _ => (t.tokenFrom keyword.stop).map Token.span = some place
  | _ => False

theorem owns_map (t : Text) (f : α → β) (span : Span) (name : Text) (place : Span) (node : Node α) :
    (node.map f).Owns t span name place ↔ node.Owns t span name place := by
  cases node with
  | call receiver method selector args => cases receiver <;> exact Iff.rfl
  | parameter kind held fallback =>
    cases held with
    | none => exact Iff.rfl
    | some held =>
      cases fallback <;> exact Iff.rfl
  | definition keyword held singleton params body => cases singleton <;> exact Iff.rfl
  | _ => exact Iff.rfl

end Node

/-! ## names through a tree -/

mutual

/-- the names in sight before and behind a tree whose constructs are settled -/
inductive Tree.Resolved (t : Text) : List Text → Tree → List Text → Prop
  | plain {node : Node Tree} {span : Span} {before names : List Text}
      (hscope : node.scope? t Tree.span span = none) (hsettled : node.Settled t Tree.span span before)
      (hchildren : Tree.ResolvedAll t (node.opening ++ before) node.inOrder names) :
      Resolved t before ⟨node, span⟩ (node.closing ++ names)
  | scope {node : Node Tree} {span : Span} {scope : Scope Tree} {before outer inner : List Text}
      (hscope : node.scope? t Tree.span span = some scope)
      (houtside : Tree.ResolvedAll t before scope.outside outer)
      (hinside : Tree.ResolvedAll t (scope.names outer) scope.inside inner) :
      Resolved t before ⟨node, span⟩ outer

/-- the names in sight before and behind trees that are read one after the other -/
inductive Tree.ResolvedAll (t : Text) : List Text → List Tree → List Text → Prop
  | nil (names : List Text) : ResolvedAll t names [] names
  | cons {tree : Tree} {trees : List Tree} {before names after : List Text}
      (h : Tree.Resolved t before tree names) (hrest : Tree.ResolvedAll t names trees after) :
      ResolvedAll t before (tree :: trees) after

end

/-- a construct in the tree stands for an identifier -/
inductive Tree.Owns (t : Text) (name : Text) (place : Span) : Tree → Prop
  | here {node : Node Tree} {span : Span} (h : node.Owns t span name place) : Owns t name place ⟨node, span⟩
  | child {node : Node Tree} {span : Span} {child : Tree} (hmem : child ∈ node.children)
      (h : Owns t name place child) : Owns t name place ⟨node, span⟩

namespace Tree
variable {t : Text} {before names after : List Text}

theorem ResolvedAll.single {tree : Tree} (h : tree.Resolved t before after) :
    ResolvedAll t before [tree] after :=
  .cons h (.nil after)

theorem ResolvedAll.append {a b : List Tree} (ha : ResolvedAll t before a names)
    (hb : ResolvedAll t names b after) : ResolvedAll t before (a ++ b) after := by
  induction a generalizing before with
  | nil =>
    cases ha with
    | nil => exact hb
  | cons tree trees ih =>
    cases ha with
    | cons htree htrees => exact .cons htree (ih htrees)

theorem ResolvedAll.split {a b : List Tree} (h : ResolvedAll t before (a ++ b) after) :
    ∃ names, ResolvedAll t before a names ∧ ResolvedAll t names b after := by
  induction a generalizing before with
  | nil => exact ⟨before, .nil before, h⟩
  | cons tree trees ih =>
    cases h with
    | cons htree htrees =>
      obtain ⟨names, ha, hb⟩ := ih htrees
      exact ⟨names, .cons htree ha, hb⟩

end Tree

end Collate
