import Collate.Build.Basic
import Collate.Grammar.Call

/-!
# Arguments, parameters and calls in a table

A run of pairs among arguments is kept aside until a positional argument or the end of the list
completes its literal.

* `Build.flush`           the literal over a run that is complete;
* `Build.argumentsIn`     an argument list with the run in progress;
* `Build.callArguments`   the arguments behind a name, and where they end;
* `Build.block`           the block behind a call.
-/

namespace Collate

/-- an item of an argument list, by its number -/
inductive Item where
  | positional (id : Nat)
  | element (id : Nat)

namespace Build

/-! ## pairs -/

/-- the label that was just taken has no value -/
def valueOmitted : Build Bool := do
  let token ← current
  return token.newlineBefore || Parse.endsLabel token.kind

/-- the offset in front of the last byte of a span -/
def beforeLast (span : Span) : Build Nat :=
  if span.stop = 0 then halt (.fault (.span span)) else return span.stop - 1

def labelPair (descend : Descent) (place : Place) : Build Nat := do
  let token ← advance
  match token.kind with
  | .label name =>
    -- the key ends in front of the colon
    let key ← pushFrom (.symbol name) token.span.start (← beforeLast token.span)
    if ← valueOmitted then
      pushFrom (.pair key none true) token.span.start token.span.stop
    else
      let value ← descend .expression place
      pushFrom (.pair key (some value) true) token.span.start (← spanOf value).stop
  | _ => refuse token

def arrowPair (descend : Descent) (place : Place) (key : Nat) : Build Nat := do
  let _ ← expect .arrow "`=>`"
  let value ← descend .expression place
  push (.pair key (some value) false) ((← spanOf key).join (← spanOf value))

def marked (descend : Descent) (place : Place) (build : Nat → Node Nat) : Build Nat := do
  let token ← advance
  let value ← descend .expression place
  push (build value) (token.span.join (← spanOf value))

/-! ## argument lists -/

def argument (descend : Descent) (place : Place) : Build Item := do
  match ← peek with
  | .star => return .positional (← marked descend place .splat)
  | .doubleStar => return .element (← marked descend place .doubleSplat)
  | .ampersand => return .positional (← marked descend place (fun value => .other [value]))
  | .label _ => return .element (← labelPair descend place)
  | _ =>
    let key ← descend .expression place
    if ← sees .arrow then
      return .element (← arrowPair descend place key)
    else
      return .positional key

/-- the arguments with the literal over a run, if there are any elements in it -/
def flush (args run : List Nat) : Build (List Nat) := do
  match run.head?, run.getLast? with
  | some first, some last =>
    let literal ← push (.literal none run) ((← spanOf first).join (← spanOf last))
    return args ++ [literal]
  | _, _ => return args

/-- an argument list in at most so many rounds, given the arguments and the run so far -/
def argumentsIn (descend : Descent) (place : Place) (closer : Option Token.Kind) :
    Nat → List Nat → List Nat → Build (List Nat)
  | 0, _, _ => outOfSteps
  | n + 1, args, run => do
    let (args, run) ←
      match ← argument descend place with
      | .element id => pure (args, run ++ [id])
      | .positional id => do
        -- the literal over the run is completed here, behind the argument that ends the run
        let args ← flush args run
        pure (args ++ [id], [])
    if ← eat .comma then
      if ← closes closer then
        flush args run
      else
        argumentsIn descend place closer n args run
    else
      flush args run

def arguments (descend : Descent) (place : Place) (closer : Option Token.Kind) :
    Build (List Nat) := do
  if ← closes closer then
    return []
  else
    argumentsIn descend place closer (← rounds) [] []

/-! ## braced literals -/

def bracedElement (descend : Descent) : Build Nat := do
  match ← peek with
  | .label _ => labelPair descend .free
  | .doubleStar => marked descend .free .doubleSplat
  | _ =>
    let key ← descend .expression .free
    if ← sees .arrow then arrowPair descend .free key
    else refuseHere (.missingArrow (← found))

def braced (descend : Descent) : Build Nat := do
  let opening ← advance
  let elements ←
    if ← sees .rightBrace then pure []
    else separated (bracedElement descend) (some .rightBrace)
  let closing ← expect .rightBrace "`\x7d`"
  push (.literal (some ⟨opening.span, closing.span⟩) elements) (opening.span.join closing.span)

/-! ## parameters -/

/-- a parameter with a name, which comes in sight -/
def namedParameter (kind : ParameterKind) (name : Text) (fallback : Option Nat) (start stop : Nat) :
    Build Nat := do
  declare name
  pushFrom (.parameter kind (some name) fallback) start stop

/-- a parameter that takes what is left over; its name has to stand close to the mark -/
def restParameter (kind : ParameterKind) (sign : Token) : Build Nat := do
  let next ← current
  match next.kind, next.spaceBefore with
  | .ident name, false =>
    let _ ← advance
    namedParameter kind name none sign.span.start next.span.stop
  | .keyword .nil_, false =>
    let _ ← advance
    pushFrom (.parameter kind none none) sign.span.start next.span.stop
  | _, _ => push (.parameter kind none none) sign.span

def parameter (descend : Descent) (place : Place) : Build Nat := do
  let token ← advance
  match token.kind with
  | .ident name =>
    if ← eat .assign then
      let fallback ← descend .expression place
      namedParameter .optional name (some fallback) token.span.start (← spanOf fallback).stop
    else
      namedParameter .required name none token.span.start token.span.stop
  | .label name =>
    if ← valueOmitted then
      namedParameter .keyword name none token.span.start token.span.stop
    else
      let fallback ← descend .expression place
      namedParameter .optionalKeyword name (some fallback) token.span.start (← spanOf fallback).stop
  | .star => restParameter .rest token
  | .doubleStar => restParameter .keywordRest token
  | .ampersand => restParameter .block token
  | _ => refuse token

def parameters (descend : Descent) (place : Place) (closer : Option Token.Kind) :
    Build (List Nat) := do
  if ← closes closer then return [] else separated (parameter descend place) none

/-! ## calls -/

/-- an opening parenthesis touches the token before it -/
def tightParen : Build Bool := do
  let token ← current
  return decide (token.kind = .leftParen) && !token.spaceBefore

def startsCommand : Build Bool := do
  let token ← current
  let next ← second
  return token.spaceBefore && !token.newlineBefore
    && Parse.opensCommand token.kind (!next.spaceBefore)

/-- the arguments behind a name that ends at `stop`, and the end of the last of them -/
def callArguments (descend : Descent) (stop : Nat) : Build (List Nat × Nat) := do
  if ← tightParen then
    let _ ← advance
    let args ← arguments descend .free (some .rightParen)
    let closing ← expect .rightParen "`)`"
    return (args, closing.span.stop)
  else if ← startsCommand then
    let args ← arguments descend .command none
    match args.getLast? with
    | some last => return (args, (← spanOf last).stop)
    | none => return (args, stop)
  else
    return ([], stop)

def blockRest (descend : Descent) (closer : Token.Kind) (wanted : String) (owner : Nat) :
    Build Nat := do
  let _ ← advance
  let (params, body, closing) ← withinScope .through do
    let params ←
      if ← eat .pipe then
        let params ← parameters descend .free (some .pipe)
        let _ ← expect .pipe "`|`"
        pure params
      else
        pure []
    let body ← statements descend .free (fun kind => decide (kind = closer))
    let closing ← expect closer wanted
    return (params, body, closing)
  push (.block owner params body) ((← spanOf owner).join closing.span)

def block (descend : Descent) (place : Place) (owner : Nat) : Build Nat := do
  let token ← current
  if token.newlineBefore then
    return owner
  else
    match token.kind, place with
    | .keyword .do_, .free => blockRest descend (.keyword .end_) "`end`" owner
    | .leftBrace, _ => blockRest descend .rightBrace "`\x7d`" owner
    | _, _ => return owner

def call (descend : Descent) (place : Place) (receiver : Option Nat) (method : Text)
    (selector : Span) : Build Nat := do
  let start ←
    match receiver with
    | some id => pure (← spanOf id).start
    | none => pure selector.start
  let (args, stop) ← callArguments descend selector.stop
  block descend place (← pushFrom (.call receiver method selector args) start stop)

end Build

end Collate
