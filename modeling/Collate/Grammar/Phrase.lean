import Collate.Grammar.Cursor

/-!
# Phrases

The constructs of the grammar refer to each other in circles.  Each of them is therefore read by a
function that is handed a `Descent`: a reader for every phrase that may occur inside it, always
behind at least one token of its own.

* `Phrase`        the phrases that occur inside other constructs;
* `Place`         whether a phrase stands among the arguments of a command;
* `Descent`       a reader for every phrase at every place;
* `statements`    statements up to a closing token.
-/

namespace Collate

/-- the phrases that occur inside other constructs -/
inductive Phrase where
  /-- an assignment or expression with its trailing conditions -/
  | statement
  /-- an assignment or expression -/
  | assignment
  /-- operands with operators between them -/
  | expression
  /-- a term with operators in front -/
  | operand
  /-- an atom with calls, scopes and indices behind it -/
  | term
  /-- a conditional with its branches -/
  | branch
  deriving DecidableEq, Repr

/-- where a phrase stands, which decides who owns a `do` behind a call -/
inductive Place where
  /-- a `do` behind a call opens a block of that call -/
  | free
  /-- a `do` belongs to the command or loop whose arguments or condition these are -/
  | command
  deriving DecidableEq, Repr

/-- a reader for every phrase at every place -/
abbrev Descent := Phrase → Place → Parse Tree

namespace Parse

/-- the token closes the body of a definition, a loop or a block -/
def isEnd (kind : Token.Kind) : Bool :=
  decide (kind = .keyword .end_)

/-- the token closes a branch of a conditional -/
def isBranchEnd (kind : Token.Kind) : Bool :=
  decide (kind = .keyword .end_ ∨ kind = .keyword .else_ ∨ kind = .keyword .elsif_)

def finished (stop : Token.Kind → Bool) : Parse Bool := do
  let kind ← peek
  return decide (kind = .eof) || stop kind

def skipSemicolons : Parse Unit :=
  modify (fun s => { s with ahead := s.ahead.dropWhile (fun t => decide (t.kind = .semicolon)) })

/-- statements in at most so many rounds -/
def statementsIn (descend : Descent) (place : Place) (stop : Token.Kind → Bool) :
    Nat → Parse (List Tree)
  | 0 => outOfSteps
  | n + 1 => do
    skipSemicolons
    if ← finished stop then
      return []
    else
      let first ← descend .statement place
      if (← finished stop) || (← sees .semicolon) || !(← sameLine) then
        return first :: (← statementsIn descend place stop n)
      else
        unexpected

/-- statements, with a semicolon or a new line between them, up to a closing token -/
def statements (descend : Descent) (place : Place) (stop : Token.Kind → Bool) :
    Parse (List Tree) := do
  statementsIn descend place stop (← rounds)

end Parse

end Collate
