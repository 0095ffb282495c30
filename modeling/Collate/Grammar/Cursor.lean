import Collate.Node.Tree
import Collate.ReadError
import Collate.Token.Basic

/-!
# Reading tokens

A reader of constructs is a function on the tokens ahead and the local names in sight, which may
fail.  This file has its primitive steps and the two loops that all constructs are built with.

* `Cursor`                 the tokens ahead, the mark behind them, and the local names in sight;
* `Parse`                  a reader of constructs;
* `Parse.advance`          take a token; behind the last one the mark stays;
* `Parse.eat`, `expect`    take a token if, or provided that, it is of a kind;
* `Parse.withinScope`           read with names of its own, which are forgotten afterwards;
* `Parse.separated`        items with commas between them;
* `Parse.chained`          a construct that further tokens extend as long as they fit.

The two loops count their rounds down from the number of tokens ahead.  A round takes at least one
token, so the count never stops a loop.
-/

namespace Collate

/-- where a reader of constructs stands -/
structure Cursor where
  /-- the tokens that are left, without the mark of the end -/
  ahead : List Token
  eof : Token
  locals : List Text
  deriving DecidableEq, Repr

namespace Cursor

def current (s : Cursor) : Token :=
  s.ahead.headD s.eof

def second (s : Cursor) : Token :=
  s.ahead.tail.headD s.eof

def advance (s : Cursor) : Cursor :=
  { s with ahead := s.ahead.tail }

end Cursor

/-- a reader of constructs -/
abbrev Parse := StateT Cursor (Except ReadError)

namespace Parse
variable {α : Type}

/-! ## single tokens -/

/-- the next token, left in place -/
def current : Parse Token := do
  return (← get).current

def peek : Parse Token.Kind := do
  return (← get).current.kind

/-- the next token, taken -/
def advance : Parse Token := do
  let s ← get
  set s.advance
  return s.current

def sees (kind : Token.Kind) : Parse Bool := do
  return decide ((← get).current.kind = kind)

/-- the next token stands on the line of the one before it -/
def sameLine : Parse Bool := do
  return !(← get).current.newlineBefore

/-- fail at the next token, which the cause names -/
def failHere (cause : Option Text → ReadCause) : Parse α := do
  let token ← current
  throw ⟨cause token.found, token.span.start⟩

def unexpected : Parse α :=
  failHere .unexpected

/-- a token that was taken does not fit -/
def refuse (token : Token) : Parse α :=
  throw ⟨.unexpected (some token.text), token.span.start⟩

/-- take the next token if it is of a kind -/
def eat (kind : Token.Kind) : Parse Bool := do
  if ← sees kind then
    let _ ← advance
    return true
  else
    return false

/-- take the next token, which has to be of a kind -/
def expect (kind : Token.Kind) (wanted : String) : Parse Token := do
  if ← sees kind then advance else failHere (.expected wanted)

def expectWord (word : Keyword) : Parse Token :=
  expect (.keyword word) ("`" ++ word.spelling ++ "`")

/-! ## local names -/

def declare (name : Text) : Parse Unit :=
  modify (fun s => { s with locals := name :: s.locals })

def isLocal (name : Text) : Parse Bool := do
  return (← get).locals.contains name

/-- whether the names around a construct are in sight inside it -/
inductive Sight where
  /-- they are, as in a block -/
  | through
  /-- they are not, as in a definition -/
  | closed
  deriving DecidableEq, Repr

/-- read with names of its own -/
def withinScope (sight : Sight) (body : Parse α) : Parse α := do
  let outer := (← get).locals
  if sight = .closed then modify (fun s => { s with locals := [] })
  let result ← body
  modify (fun s => { s with locals := outer })
  return result

/-! ## loops -/

/-- fail because the rounds of a loop are used up -/
def outOfSteps : Parse α :=
  failHere (fun _ => .outOfSteps)

/-- one more round than there are tokens ahead -/
def rounds : Parse Nat := do
  return (← get).ahead.length + 1

def closes (closer : Option Token.Kind) : Parse Bool := do
  match closer with
  | some kind => sees kind
  | none => return false

/-- one or more items in at most so many rounds -/
def separatedIn (item : Parse α) (closer : Option Token.Kind) : Nat → Parse (List α)
  | 0 => outOfSteps
  | n + 1 => do
    let first ← item
    if ← eat .comma then
      if ← closes closer then
        return [first]
      else
        return first :: (← separatedIn item closer n)
    else
      return [first]

/-- One or more items with commas between them.  A comma may also stand in front of the closing
token. -/
def separated (item : Parse α) (closer : Option Token.Kind) : Parse (List α) := do
  separatedIn item closer (← rounds)

def chainedIn (extend : Tree → Parse (Option Tree)) : Nat → Tree → Parse Tree
  | 0, _ => outOfSteps
  | n + 1, tree => do
    match ← extend tree with
    | some longer => chainedIn extend n longer
    | none => return tree

/-- a construct extended as long as the tokens ahead fit -/
def chained (extend : Tree → Parse (Option Tree)) (tree : Tree) : Parse Tree := do
  chainedIn extend (← rounds) tree

end Parse

end Collate
