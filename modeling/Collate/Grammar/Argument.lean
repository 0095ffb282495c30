import Collate.Grammar.Phrase

/-!
# Arguments, pairs and literals

The items between commas: arguments of calls, elements of arrays and indices, and pairs of braced
literals.  Pairs and double splats among arguments are gathered: each run of neighbours becomes one
literal without braces.

* `Parse.valueOmitted`   a label has no value: nothing that could be one follows on its line;
* `Parse.labelPair`      `key: value` or `key:`;
* `Parse.arrowPair`      `key => value`, behind its key;
* `Parse.argument`       one item of an argument list;
* `gatherRuns`           the arguments with their runs of pairs gathered;
* `Parse.arguments`      an argument list;
* `Parse.braced`         a literal between braces.
-/

namespace Collate

/-- an item of an argument list -/
inductive Argument where
  | positional (tree : Tree)
  /-- a pair or double splat, which is part of a literal without braces -/
  | element (tree : Tree)

/-- a literal without braces over a run of elements, if there are any -/
def runLiteral : List Tree → List Tree
  | [] => []
  | first :: rest =>
    [⟨.literal none (first :: rest), first.span.join (rest.getLastD first).span⟩]

/-- the trees of an argument list, given the elements that directly precede it -/
def gatherRuns (run : List Tree) : List Argument → List Tree
  | [] => runLiteral run
  | .element tree :: rest => gatherRuns (run ++ [tree]) rest
  | .positional tree :: rest => runLiteral run ++ tree :: gatherRuns [] rest

namespace Parse

/-- kinds that can follow a label without being its value -/
def endsLabel : Token.Kind → Bool
  | .comma | .rightParen | .rightBrace | .rightBracket | .pipe | .semicolon | .eof => true
  | .keyword .if_ | .keyword .unless_ | .keyword .while_ | .keyword .until_ | .keyword .do_
  | .keyword .then_ | .keyword .end_ | .keyword .and_ | .keyword .or_ => true
  | _ => false

/-- the label that was just taken has no value -/
def valueOmitted : Parse Bool := do
  let token ← current
  return token.newlineBefore || endsLabel token.kind

/-- a pair with a label for its key -/
def labelPair (descend : Descent) (place : Place) : Parse Tree := do
  let token ← advance
  match token.kind with
  | .label name =>
    let key : Tree := ⟨.symbol name, ⟨token.span.start, token.span.stop - 1⟩⟩
    if ← valueOmitted then
      return ⟨.pair key none true, token.span⟩
    else
      let value ← descend .expression place
      return ⟨.pair key (some value) true, ⟨token.span.start, value.span.stop⟩⟩
  | _ => refuse token

/-- a pair with an arrow, behind its key -/
def arrowPair (descend : Descent) (place : Place) (key : Tree) : Parse Tree := do
  let _ ← expect .arrow "`=>`"
  let value ← descend .expression place
  return ⟨.pair key (some value) false, key.span.join value.span⟩

/-- a mark in front of an expression, and the construct they make -/
def marked (descend : Descent) (place : Place) (build : Tree → Node Tree) : Parse Tree := do
  let token ← advance
  let value ← descend .expression place
  return ⟨build value, token.span.join value.span⟩

def argument (descend : Descent) (place : Place) : Parse Argument := do
  match ← peek with
  | .star => return .positional (← marked descend place .splat)
  | .doubleStar => return .element (← marked descend place .doubleSplat)
  | .ampersand => return .positional (← marked descend place (fun value => .other [value]))
  | .label _ => return .element (← labelPair descend place)
  | _ =>
    let key ← descend .expression place
    if ← sees .arrow then
      return .element (← arrowPair descend place key)
    else
      return .positional key

/-- an argument list up to its closing token, which is left -/
def arguments (descend : Descent) (place : Place) (closer : Option Token.Kind) :
    Parse (List Tree) := do
  if ← closes closer then
    return []
  else
    return gatherRuns [] (← separated (argument descend place) closer)

def bracedElement (descend : Descent) : Parse Tree := do
  match ← peek with
  | .label _ => labelPair descend .free
  | .doubleStar => marked descend .free .doubleSplat
  | _ =>
    let key ← descend .expression .free
    if ← sees .arrow then arrowPair descend .free key else failHere .missingArrow

def braced (descend : Descent) : Parse Tree := do
  let opening ← advance
  let elements ←
    if ← sees .rightBrace then pure []
    else separated (bracedElement descend) (some .rightBrace)
  let closing ← expect .rightBrace "`\x7d`"
  return ⟨.literal (some ⟨opening.span, closing.span⟩) elements, opening.span.join closing.span⟩

end Parse

end Collate
