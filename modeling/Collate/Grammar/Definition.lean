import Collate.Grammar.Call

/-!
# Definitions, classes and modules

Their bodies see none of the names around them.

* `Parse.definition`  `def`, with a body up to `end` or a single statement behind `=`;
* `Parse.namespaced`  `class` and `module`.
-/

namespace Collate

namespace Parse

/-- the receiver in front of the name of a definition -/
def singleton : Parse (Option Tree) := do
  let s ← get
  if s.current.kind = .keyword .self_ ∧ s.second.kind = .dot then
    let receiver ← advance
    let _ ← advance
    return some (.leaf receiver.span)
  else
    return none

/-- the name of a definition; an equals sign that touches it and an opening parenthesis belongs
to it -/
def definedName : Parse Text := do
  let token ← advance
  let name ←
    match token.kind with
    | .ident name | .const name | .op name => pure name
    | .keyword word => pure word.text
    | _ => refuse token
  let s ← get
  if s.current.kind = .assign ∧ s.current.spaceBefore = false ∧ s.second.kind = .leftParen then
    let _ ← advance
    return name ++ ['=']
  else
    return name

/-- the parameters of a definition, with or without parentheses -/
def signature (descend : Descent) (place : Place) : Parse (List Tree) := do
  if ← sees .leftParen then
    let _ ← advance
    let params ← parameters descend .free (some .rightParen)
    let _ ← expect .rightParen "`)`"
    return params
  else if (← sameLine) && startsParameter (← peek) then
    parameters descend place none
  else
    return []

def definition (descend : Descent) (place : Place) : Parse Tree := do
  let keyword ← advance
  let receiver ← singleton
  let name ← definedName
  withinScope .closed do
    let params ← signature descend place
    if ← eat .assign then
      let body ← descend .statement place
      return ⟨.definition keyword.span name receiver params [body], keyword.span.join body.span⟩
    else
      let body ← statements descend .free isEnd
      let closing ← expectWord .end_
      return ⟨.definition keyword.span name receiver params body, keyword.span.join closing.span⟩

def superclass (descend : Descent) (place : Place) (keyword : Token) : Parse (List Tree) := do
  if keyword.kind = .keyword .class_ ∧ (← peek) = .op ['<'] then
    let _ ← advance
    return [← descend .expression place]
  else
    return []

def namespaced (descend : Descent) (place : Place) : Parse Tree := do
  let keyword ← advance
  let name ← descend .term place
  let parents ← superclass descend place keyword
  let body ← withinScope .closed (statements descend .free isEnd)
  let closing ← expectWord .end_
  return ⟨.other (name :: (parents ++ body)), keyword.span.join closing.span⟩

end Parse

end Collate
