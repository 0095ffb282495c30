import Collate.Rule.Basic

/-!
# The shorthand rule

A pair `key: key` whose value is the local variable of that name can be written `key:`.  The rule
leaves a pair alone when a comment shares its line, and when it ends the only argument of a call
without receiver that a trailing condition or a block follows, because the value would then be
looked for behind it.

* `Document.redundantKey`     the key of a pair that repeats it;
* `Document.soleArgumentCall` the call whose only argument ends with a pair;
* `Rule.checkShorthand`       the rule.
-/

namespace Collate

namespace Document

/-- the key of a pair whose value is the local variable of that name -/
def redundantKey (d : Document) (id : Nat) : Attempt Text := do
  match d.node id with
  | .pair key (some value) true =>
    match d.symbolName key, d.node value with
    | some name, .localVariable held =>
      if held = name then
        let source ← d.source id
        if source.trim.isShorthand then failure else return name
      else
        failure
    | _, _ => failure
  | _ => failure

/-- the call without receiver whose only argument is the literal that ends with a pair -/
def soleArgumentCall (d : Document) (id : Nat) : Option Nat := do
  let literal ← d.parent id
  match d.node literal with
  | .literal _ elements =>
    if elements.getLast? = some id then
      let call ← d.parent literal
      match d.node call with
      | .call none _ _ args => if args = [literal] then some call else none
      | _ => none
    else
      none
  | _ => none

/-- a trailing condition or a block follows the call -/
def isFollowed (d : Document) (call : Nat) : Bool :=
  match (d.parent call).map d.node with
  | some (.conditional keyword _ modifier _ _ _) => modifier && decide (keyword ≠ .elsif_)
  | some (.block owner _ _) => owner == call
  | _ => false

end Document

def Rule.checkShorthand (d : Document) (id : Nat) : Attempt Offense := do
  let key ← d.redundantKey id
  if d.hasCommentOn (d.text.firstLine (d.span id)) then
    failure
  else if (d.soleArgumentCall id).any d.isFollowed then
    failure
  else
    return ⟨shorthand, shorthandMessage (String.ofList key), d.span id,
      some ⟨d.span id, key ++ [':']⟩, none⟩

end Collate
