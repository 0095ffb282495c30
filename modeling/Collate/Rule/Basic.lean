import Collate.Sequence.Eligible
import Collate.Sequence.Layout
import Collate.Settings

/-!
# Rules and offenses

* `Rule`            the rules, in the order in which they are applied;
* `Rule.enabled`    the rules that settings leave switched on;
* `Offense`         what a rule finds at a node, with the edit that would mend it;
* `Offense.ofOrder` the finding of an ordering rule: entries that are not in canonical order.
-/

namespace Collate

inductive Rule where
  /-- the keys of literals are in order -/
  | literalOrder
  /-- the keyword arguments of listed calls are in order -/
  | keywordOrder
  /-- the symbol arguments of listed calls are in order -/
  | symbolOrder
  /-- the keyword parameters of definitions are in order -/
  | parameterOrder
  /-- a pair of a key and the local variable of that name is abbreviated -/
  | shorthand
  deriving DecidableEq, Repr

namespace Rule

/-- every rule, in the order in which they are applied -/
def all : List Rule :=
  [literalOrder, keywordOrder, symbolOrder, parameterOrder, shorthand]

/-- the name of a rule, which is also the name of its section in the settings -/
def name : Rule → String
  | literalOrder => "Canon/SortHash"
  | keywordOrder => "Canon/SortKeywords"
  | symbolOrder => "Canon/SortMethodArguments"
  | parameterOrder => "Canon/SortMethodDefinition"
  | shorthand => "Canon/KeywordShorthand"

def shorthandMessage (key : String) : String :=
  "Use Ruby 3 keyword shorthand `" ++ key ++ ":` instead of `" ++ key ++ ": " ++ key ++ "`."

/-- what a rule says; the shorthand rule says it of a key called `name` -/
def message : Rule → String
  | literalOrder => "Sort hash keys alphabetically."
  | keywordOrder => "Sort keyword arguments alphabetically."
  | symbolOrder => "Sort symbol arguments alphabetically."
  | parameterOrder => "Sort keyword arguments alphabetically."
  | shorthand => shorthandMessage "name"

def enabled (s : Settings) : List Rule :=
  all.filter (fun r => (s.rule r.name).enabled)

end Rule

/-- what a rule finds at a node -/
structure Offense where
  rule : Rule
  message : String
  /-- where it is reported -/
  anchor : Span
  /-- the edit that would mend it -/
  edit : Option Edit
  /-- why there is no such edit -/
  note : Option String
  deriving DecidableEq, Repr

namespace Offense

def looseCommentNote : String :=
  "not corrected: a comment between entries would be displaced"

/-- the offense of a sequence that is not in canonical order -/
def ofOrder (d : Document) (rule : Rule) (anchor : Span) (s : Sequence) (policy : Policy) :
    Attempt Offense := do
  let order := policy.order s.entries
  if isIdentity order then
    failure
  else if s.hasLooseComment d.comments then
    return ⟨rule, rule.message, anchor, none, some looseCommentNote⟩
  else
    let edit ← s.edit d.text order
    return ⟨rule, rule.message, anchor, some edit, none⟩

end Offense

end Collate
