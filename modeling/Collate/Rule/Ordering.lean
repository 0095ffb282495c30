import Collate.Rule.Basic

/-!
# Ordering rules

Each rule looks at one node and gives at most one offense.

* `Rule.checkLiteral`      literals; one inside a literal that will be put into order waits;
* `Rule.checkKeywords`     the keyword arguments of a listed call;
* `Rule.checkSymbols`      the symbol arguments of a listed call;
* `Rule.checkDefinition`   the keyword parameters of a definition.
-/

namespace Collate

namespace Rule

def checkLiteral (s : RuleSettings) (d : Document) (id : Nat) : Attempt Offense := do
  let policy : Policy := ⟨s.shorthandsFirst⟩
  let entries ← d.eligibleLiteral id s.excludeMethods
  if ← d.hasUnsortedAncestor id s.excludeMethods policy then
    failure
  else
    Offense.ofOrder d literalOrder (d.span id) entries policy

def checkKeywords (s : RuleSettings) (d : Document) (id : Nat) : Attempt Offense := do
  let entries ← d.keywordSequence id s.methods
  Offense.ofOrder d keywordOrder (d.span id) entries ⟨s.shorthandsFirst⟩

def checkSymbols (s : RuleSettings) (d : Document) (id : Nat) : Attempt Offense := do
  match d.node id with
  | .call _ _ selector _ =>
    let entries ← d.symbolSequence id s.methods
    Offense.ofOrder d symbolOrder selector entries .alphabetical
  | _ => failure

def checkDefinition (d : Document) (id : Nat) : Attempt Offense := do
  match d.node id with
  | .definition keyword _ _ _ _ =>
    let entries ← d.parameterSequence id
    Offense.ofOrder d parameterOrder keyword entries .alphabetical
  | _ => failure

end Rule

end Collate
