import Collate.Grammar.Parameter

/-!
# Calls and blocks

A call is a method name with arguments, between parentheses that touch the name or without them on
the same line, and then perhaps a block.

* `Parse.startsCommand`  the next token opens an argument list without parentheses;
* `Parse.callArguments`  the arguments behind a name, and where they end;
* `Parse.block`          the block behind a call, if there is one;
* `Parse.call`           a call behind its method name.
-/

namespace Collate

namespace Parse

/-- an opening parenthesis touches the token before it -/
def tightParen : Parse Bool := do
  let token ← current
  return decide (token.kind = .leftParen) && !token.spaceBefore

/-- A token of this kind opens an argument list without parentheses.  A mark that could also be an
operator does so only if what follows touches it. -/
def opensCommand (kind : Token.Kind) (nextTight : Bool) : Bool :=
  match kind with
  | .ident _ | .const _ | .ivar _ | .label _ | .symbol _ | .str _ | .number _ => true
  | .leftBracket | .leftParen => true
  | .keyword .nil_ | .keyword .true_ | .keyword .false_ | .keyword .self_ | .keyword .not_ => true
  | .star | .doubleStar | .ampersand => nextTight
  | .op spelling => (spelling == ['!'] || spelling == ['-']) && nextTight
  | _ => false

/-- the next token opens an argument list without parentheses -/
def startsCommand : Parse Bool := do
  let s ← get
  return s.current.spaceBefore && !s.current.newlineBefore
    && opensCommand s.current.kind (!s.second.spaceBefore)

/-- the arguments behind a name that ends at `stop`, and the end of the last of them -/
def callArguments (descend : Descent) (stop : Nat) : Parse (List Tree × Nat) := do
  if ← tightParen then
    let _ ← advance
    let args ← arguments descend .free (some .rightParen)
    let closing ← expect .rightParen "`)`"
    return (args, closing.span.stop)
  else if ← startsCommand then
    let args ← arguments descend .command none
    return (args, (args.getLast?.map (·.span.stop)).getD stop)
  else
    return ([], stop)

def blockRest (descend : Descent) (closer : Token.Kind) (wanted : String) (owner : Tree) :
    Parse Tree := do
  let _ ← advance
  withinScope .through do
    let params ←
      if ← eat .pipe then
        let params ← parameters descend .free (some .pipe)
        let _ ← expect .pipe "`|`"
        pure params
      else
        pure []
    let body ← statements descend .free (fun kind => decide (kind = closer))
    let closing ← expect closer wanted
    return ⟨.block owner params body, owner.span.join closing.span⟩

/-- a call with the block behind it, which has to open on the same line -/
def block (descend : Descent) (place : Place) (owner : Tree) : Parse Tree := do
  let token ← current
  if token.newlineBefore then
    return owner
  else
    match token.kind, place with
    | .keyword .do_, .free => blockRest descend (.keyword .end_) "`end`" owner
    | .leftBrace, _ => blockRest descend .rightBrace "`\x7d`" owner
    | _, _ => return owner

def call (descend : Descent) (place : Place) (receiver : Option Tree) (method : Text)
    (selector : Span) : Parse Tree := do
  let start := (receiver.map (·.span.start)).getD selector.start
  let (args, stop) ← callArguments descend selector.stop
  block descend place ⟨.call receiver method selector args, ⟨start, stop⟩⟩

end Parse

end Collate
