import Collate.Grammar.Call

/-!
# Conditionals, loops and jumps

* `Parse.branch`      `if`, `unless` and `elsif`, with their branches up to `end`;
* `Parse.repetition`  `while` and `until`; a `do` behind the condition belongs to the loop;
* `Parse.jump`        `return` and `yield`, with arguments like those of a call;
* `Parse.modifier`    a condition that trails a statement on its line.
-/

namespace Collate

def ConditionalKeyword.ofKind? : Token.Kind → Option ConditionalKeyword
  | .keyword .if_ => some .if_
  | .keyword .unless_ => some .unless_
  | .keyword .elsif_ => some .elsif_
  | .keyword .while_ => some .while_
  | .keyword .until_ => some .until_
  | _ => none

namespace Parse

/-- what follows the first branch of a conditional: the other branch, and where it all ends -/
def alternative (descend : Descent) (place : Place) : Parse (List Tree × Nat) := do
  if ← sees (.keyword .elsif_) then
    let nested ← descend .branch place
    return ([nested], nested.span.stop)
  else
    let body ←
      if ← eat (.keyword .else_) then statements descend .free isEnd
      else pure []
    let closing ← expectWord .end_
    return (body, closing.span.stop)

def branch (descend : Descent) (place : Place) : Parse Tree := do
  let token ← advance
  let keyword := (ConditionalKeyword.ofKind? token.kind).getD .if_
  let condition ← descend .expression place
  let _ ← eat (.keyword .then_)
  let body ← statements descend .free isBranchEnd
  let (other, stop) ← alternative descend place
  return ⟨.conditional keyword token.span false condition body other, ⟨token.span.start, stop⟩⟩

def repetition (descend : Descent) : Parse Tree := do
  let token ← advance
  let keyword := (ConditionalKeyword.ofKind? token.kind).getD .while_
  let condition ← descend .expression .command
  let _ ← eat (.keyword .do_)
  let body ← statements descend .free isEnd
  let closing ← expectWord .end_
  return ⟨.conditional keyword token.span false condition body [], token.span.join closing.span⟩

def jump (descend : Descent) : Parse Tree := do
  let token ← advance
  let (args, stop) ← callArguments descend token.span.stop
  return ⟨.other args, ⟨token.span.start, stop⟩⟩

/-- a reserved word that trails a statement -/
def trailingKeyword : Token.Kind → Option ConditionalKeyword
  | .keyword .elsif_ => none
  | kind => ConditionalKeyword.ofKind? kind

def modifier (descend : Descent) (place : Place) (tree : Tree) : Parse (Option Tree) := do
  let token ← current
  match token.newlineBefore, trailingKeyword token.kind with
  | false, some keyword =>
    let _ ← advance
    let condition ← descend .expression place
    return some ⟨.conditional keyword token.span true condition [tree] [],
      tree.span.join condition.span⟩
  | _, _ => return none

end Parse

end Collate
