import Collate.Build.Argument
import Collate.Grammar.Statement

/-!
# Statements in a table

* `Build.branch`, `Build.definition`, `Build.atom` and the others   as in the grammar;
* `Build.phrase`    all phrases, down to a depth;
* `Build.program`   a whole file, with its root.
-/

namespace Collate

namespace Build

/-! ## conditionals, loops and jumps -/

def alternative (descend : Descent) (place : Place) : Build (List Nat × Nat) := do
  if ← sees (.keyword .elsif_) then
    let nested ← descend .branch place
    return ([nested], (← spanOf nested).stop)
  else
    let body ←
      if ← eat (.keyword .else_) then statements descend .free Parse.isEnd
      else pure []
    let closing ← expectWord .end_
    return (body, closing.span.stop)

def branch (descend : Descent) (place : Place) : Build Nat := do
  let token ← advance
  let keyword := (ConditionalKeyword.ofKind? token.kind).getD .if_
  let condition ← descend .expression place
  let _ ← eat (.keyword .then_)
  let body ← statements descend .free Parse.isBranchEnd
  let (other, stop) ← alternative descend place
  pushFrom (.conditional keyword token.span false condition body other) token.span.start stop

def repetition (descend : Descent) : Build Nat := do
  let token ← advance
  let keyword := (ConditionalKeyword.ofKind? token.kind).getD .while_
  let condition ← descend .expression .command
  let _ ← eat (.keyword .do_)
  let body ← statements descend .free Parse.isEnd
  let closing ← expectWord .end_
  push (.conditional keyword token.span false condition body []) (token.span.join closing.span)

def jump (descend : Descent) : Build Nat := do
  let token ← advance
  let (args, stop) ← callArguments descend token.span.stop
  pushFrom (.other args) token.span.start stop

def modifier (descend : Descent) (place : Place) (id : Nat) : Build (Option Nat) := do
  let token ← current
  match token.newlineBefore, Parse.trailingKeyword token.kind with
  | false, some keyword =>
    let _ ← advance
    let condition ← descend .expression place
    return some (← push (.conditional keyword token.span true condition [id] [])
      ((← spanOf id).join (← spanOf condition)))
  | _, _ => return none

/-! ## definitions, classes and modules -/

def singleton : Build (Option Nat) := do
  if (← sees (.keyword .self_)) && decide ((← second).kind = .dot) then
    let receiver ← advance
    let id ← push (.other []) receiver.span
    let _ ← advance
    return some id
  else
    return none

def definedName : Build Text := do
  let token ← advance
  let name ←
    match token.kind with
    | .ident name | .const name | .op name => pure name
    | .keyword word => pure word.text
    | _ => refuse token
  let next ← current
  if decide (next.kind = .assign) && !next.spaceBefore && decide ((← second).kind = .leftParen) then
    let _ ← advance
    return name ++ ['=']
  else
    return name

def signature (descend : Descent) (place : Place) : Build (List Nat) := do
  if ← sees .leftParen then
    let _ ← advance
    let params ← parameters descend .free (some .rightParen)
    let _ ← expect .rightParen "`)`"
    return params
  else if (← sameLine) && Parse.startsParameter (← peek) then
    parameters descend place none
  else
    return []

def definition (descend : Descent) (place : Place) : Build Nat := do
  let keyword ← advance
  let receiver ← singleton
  let name ← definedName
  withinScope .closed do
    let params ← signature descend place
    if ← eat .assign then
      let body ← descend .statement place
      push (.definition keyword.span name receiver params [body])
        (keyword.span.join (← spanOf body))
    else
      let body ← statements descend .free Parse.isEnd
      let closing ← expectWord .end_
      push (.definition keyword.span name receiver params body) (keyword.span.join closing.span)

def superclass (descend : Descent) (place : Place) (keyword : Token) : Build (List Nat) := do
  if keyword.kind = .keyword .class_ ∧ (← peek) = .op ['<'] then
    let _ ← advance
    return [← descend .expression place]
  else
    return []

def namespaced (descend : Descent) (place : Place) : Build Nat := do
  let keyword ← advance
  let name ← descend .term place
  let parents ← superclass descend place keyword
  let body ← withinScope .closed (statements descend .free Parse.isEnd)
  let closing ← expectWord .end_
  push (.other (name :: (parents ++ body))) (keyword.span.join closing.span)

/-! ## atoms and terms -/

def name (descend : Descent) (place : Place) (name : Text) : Build Nat := do
  let token ← advance
  if (← isLocal name) && !(← tightParen) then
    push (.localVariable name) token.span
  else
    call descend place none name token.span

def constant (descend : Descent) (place : Place) (name : Text) : Build Nat := do
  let token ← advance
  if ← tightParen then
    call descend place none name token.span
  else
    push (.other []) token.span

def single (node : Node Nat) : Build Nat := do
  let token ← advance
  push node token.span

def array (descend : Descent) : Build Nat := do
  let opening ← advance
  let items ← arguments descend .free (some .rightBracket)
  let closing ← expect .rightBracket "`]`"
  push (.other items) (opening.span.join closing.span)

def parenthesized (descend : Descent) : Build Nat := do
  let opening ← advance
  let inner ← descend .statement .free
  let closing ← expect .rightParen "`)`"
  push (.other [inner]) (opening.span.join closing.span)

def atom (descend : Descent) (place : Place) : Build Nat := do
  match ← peek with
  | .ident text => name descend place text
  | .const text => constant descend place text
  | .ivar _ | .number _ => single (.other [])
  | .keyword .nil_ | .keyword .true_ | .keyword .false_ | .keyword .self_ => single (.other [])
  | .str content => single (.str content)
  | .symbol text => single (.symbol text)
  | .keyword .def_ => definition descend place
  | .keyword .if_ | .keyword .unless_ => branch descend place
  | .keyword .while_ | .keyword .until_ => repetition descend
  | .keyword .class_ | .keyword .module_ => namespaced descend place
  | .keyword .return_ | .keyword .yield_ => jump descend
  | .leftBracket => array descend
  | .leftBrace => braced descend
  | .leftParen => parenthesized descend
  | .label _ => refuseHere .misplacedLabel
  | _ => unexpected

def methodName : Build (Text × Span) := do
  let token ← advance
  match token.kind with
  | .ident name | .const name => return (name, token.span)
  | .keyword word => return (word.text, token.span)
  | _ => refuse token

def access (descend : Descent) (place : Place) (id : Nat) : Build (Option Nat) := do
  let token ← current
  match token.kind, token.spaceBefore with
  | .dot, _ | .safeDot, _ =>
    let _ ← advance
    let (method, selector) ← methodName
    return some (← call descend place (some id) method selector)
  | .scope, _ =>
    let _ ← advance
    let name ← advance
    match name.kind with
    | .const _ | .ident _ => return some (← push (.other [id]) ((← spanOf id).join name.span))
    | _ => refuse name
  | .leftBracket, false =>
    let _ ← advance
    let items ← arguments descend .free (some .rightBracket)
    let closing ← expect .rightBracket "`]`"
    return some (← push (.other (id :: items)) ((← spanOf id).join closing.span))
  | _, _ => return none

def term (descend : Descent) (place : Place) : Build Nat := do
  chained (access descend place) (← atom descend place)

/-! ## operators -/

def operand (descend : Descent) (place : Place) : Build Nat := do
  if Parse.isLeading (← peek) then
    let token ← advance
    let inner ← descend .operand place
    push (.other [inner]) (token.span.join (← spanOf inner))
  else
    term descend place

def binary (descend : Descent) (place : Place) (id : Nat) : Build (Option Nat) := do
  if Parse.isBinary (← current) then
    let _ ← advance
    let right ← operand descend place
    return some (← push (.other [id, right]) ((← spanOf id).join (← spanOf right)))
  else
    return none

def expression (descend : Descent) (place : Place) : Build Nat := do
  chained (binary descend place) (← operand descend place)

/-! ## statements -/

def assignment (descend : Descent) (place : Place) : Build Nat := do
  let token ← current
  let next ← second
  match token.kind, Parse.isAssigning next.kind with
  | .ident name, true =>
    let target ← advance
    let _ ← advance
    declare name
    let value ← descend .assignment place
    push (.assignment name value) (target.span.join (← spanOf value))
  | .ivar _, true | .const _, true =>
    let target ← advance
    let _ ← advance
    let value ← descend .assignment place
    push (.other [value]) (target.span.join (← spanOf value))
  | _, _ => expression descend place

def statement (descend : Descent) (place : Place) : Build Nat := do
  chained (modifier descend place) (← assignment descend place)

/-! ## all phrases -/

def level (descend : Descent) : Descent
  | .statement => statement descend
  | .assignment => assignment descend
  | .expression => expression descend
  | .operand => operand descend
  | .term => term descend
  | .branch => branch descend

/-- every phrase, down to a depth -/
def phrase : Nat → Descent
  | 0 => fun _ _ => outOfSteps
  | depth + 1 => level (phrase depth)

def program : Build Nat := do
  let body ← statements (phrase (← rounds)) .free (fun _ => false)
  if (← peek) = .eof then
    pushFrom (.program body) 0 (← state).text.size
  else
    unexpected

end Build

end Collate
