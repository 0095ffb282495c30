import Collate.Grammar.Control
import Collate.Grammar.Definition

/-!
# Expressions and statements

From atoms up to whole programs.  Binary operators are read at one level, from left to right.

* `Parse.atom`        names, literals, brackets and the constructs that a reserved word opens;
* `Parse.term`        an atom with calls, scopes and indices behind it;
* `Parse.operand`     a term with operators in front;
* `Parse.expression`  operands with operators between them;
* `Parse.assignment`  an assignment or an expression;
* `Parse.statement`   an assignment with the conditions that trail it;
* `Parse.phrase`      all phrases, down to a depth;
* `Parse.program`     a whole file.

A phrase inside another stands behind one of its tokens at least, so a depth above the number of
tokens ahead is never used up.
-/

namespace Collate

namespace Parse

/-! ## atoms and terms -/

/-- a name: a local variable in sight, or else a call -/
def name (descend : Descent) (place : Place) (name : Text) : Parse Tree := do
  let token ← advance
  if (← isLocal name) && !(← tightParen) then
    return ⟨.localVariable name, token.span⟩
  else
    call descend place none name token.span

/-- a constant; with a parenthesis that touches it, a call -/
def constant (descend : Descent) (place : Place) (name : Text) : Parse Tree := do
  let token ← advance
  if ← tightParen then
    call descend place none name token.span
  else
    return .leaf token.span

def single (node : Node Tree) : Parse Tree := do
  let token ← advance
  return ⟨node, token.span⟩

def array (descend : Descent) : Parse Tree := do
  let opening ← advance
  let items ← arguments descend .free (some .rightBracket)
  let closing ← expect .rightBracket "`]`"
  return ⟨.other items, opening.span.join closing.span⟩

def parenthesized (descend : Descent) : Parse Tree := do
  let opening ← advance
  let inner ← descend .statement .free
  let closing ← expect .rightParen "`)`"
  return ⟨.other [inner], opening.span.join closing.span⟩

def atom (descend : Descent) (place : Place) : Parse Tree := do
  match ← peek with
  | .ident text => name descend place text
  | .const text => constant descend place text
  | .ivar _ | .number _ => single (.other [])
  | .keyword .nil_ | .keyword .true_ | .keyword .false_ | .keyword .self_ => single (.other [])
  | .str content => single (.str content)
  | .symbol text => single (.symbol text)
  | .keyword .def_ => definition descend place
  | .keyword .if_ | .keyword .unless_ => branch descend place
  | .keyword .while_ | .keyword .until_ => repetition descend
  | .keyword .class_ | .keyword .module_ => namespaced descend place
  | .keyword .return_ | .keyword .yield_ => jump descend
  | .leftBracket => array descend
  | .leftBrace => braced descend
  | .leftParen => parenthesized descend
  | .label _ => failHere (fun _ => .misplacedLabel)
  | _ => unexpected

/-- the method name behind a dot -/
def methodName : Parse (Text × Span) := do
  let token ← advance
  match token.kind with
  | .ident name | .const name => return (name, token.span)
  | .keyword word => return (word.text, token.span)
  | _ => refuse token

/-- a term with one more call, scope or index behind it -/
def access (descend : Descent) (place : Place) (tree : Tree) : Parse (Option Tree) := do
  let token ← current
  match token.kind, token.spaceBefore with
  | .dot, _ | .safeDot, _ =>
    let _ ← advance
    let (method, selector) ← methodName
    return some (← call descend place (some tree) method selector)
  | .scope, _ =>
    let _ ← advance
    let name ← advance
    match name.kind with
    | .const _ | .ident _ => return some ⟨.other [tree], tree.span.join name.span⟩
    | _ => refuse name
  | .leftBracket, false =>
    let _ ← advance
    let items ← arguments descend .free (some .rightBracket)
    let closing ← expect .rightBracket "`]`"
    return some ⟨.other (tree :: items), tree.span.join closing.span⟩
  | _, _ => return none

/-- an atom with calls, scopes and indices behind it -/
def term (descend : Descent) (place : Place) : Parse Tree := do
  chained (access descend place) (← atom descend place)

/-! ## operators -/

/-- the token is an operator that stands in front of its operand -/
def isLeading : Token.Kind → Bool
  | .op spelling => spelling == ['!'] || spelling == ['-'] || spelling == ['+'] || spelling == ['~']
  | .keyword .not_ => true
  | _ => false

def operand (descend : Descent) (place : Place) : Parse Tree := do
  if isLeading (← peek) then
    let token ← advance
    let inner ← descend .operand place
    return ⟨.other [inner], token.span.join inner.span⟩
  else
    term descend place

/-- The token is an operator between two operands.  All but `and` and `or` have to stand on the
line of the operand before them. -/
def isBinary (token : Token) : Bool :=
  match token.kind with
  | .op spelling =>
    !token.newlineBefore
      && !(spelling == ['!'] || spelling == ['~'] || spelling == ['-', '>'])
  | .star | .doubleStar => !token.newlineBefore
  | .keyword .and_ | .keyword .or_ => true
  | _ => false

def binary (descend : Descent) (place : Place) (tree : Tree) : Parse (Option Tree) := do
  if isBinary (← current) then
    let _ ← advance
    let right ← operand descend place
    return some ⟨.other [tree, right], tree.span.join right.span⟩
  else
    return none

/-- operands with operators between them -/
def expression (descend : Descent) (place : Place) : Parse Tree := do
  chained (binary descend place) (← operand descend place)

/-! ## statements -/

def isAssigning : Token.Kind → Bool
  | .assign | .opAssign _ => true
  | _ => false

/-- an assignment, whose value may be an assignment again, or an expression -/
def assignment (descend : Descent) (place : Place) : Parse Tree := do
  let s ← get
  match s.current.kind, isAssigning s.second.kind with
  | .ident name, true =>
    let target ← advance
    let _ ← advance
    declare name
    let value ← descend .assignment place
    return ⟨.assignment name value, target.span.join value.span⟩
  | .ivar _, true | .const _, true =>
    let target ← advance
    let _ ← advance
    let value ← descend .assignment place
    return ⟨.other [value], target.span.join value.span⟩
  | _, _ => expression descend place

/-- an assignment or expression with the conditions that trail it -/
def statement (descend : Descent) (place : Place) : Parse Tree := do
  chained (modifier descend place) (← assignment descend place)

/-! ## all phrases -/

/-- every phrase, given the phrases inside it -/
def level (descend : Descent) : Descent
  | .statement => statement descend
  | .assignment => assignment descend
  | .expression => expression descend
  | .operand => operand descend
  | .term => term descend
  | .branch => branch descend

/-- every phrase, down to a depth -/
def phrase : Nat → Descent
  | 0 => fun _ _ => outOfSteps
  | depth + 1 => level (phrase depth)

def program : Parse (List Tree) := do
  let body ← statements (phrase (← rounds)) .free (fun _ => false)
  if (← peek) = .eof then return body else unexpected

end Parse

end Collate
