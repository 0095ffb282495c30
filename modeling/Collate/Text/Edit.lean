import Collate.Sorting
import Collate.Text.Basic

/-!
# Batches of edits

An edit puts a replacement in the place of a span.  A batch is applied as a whole or not at all:

* `Edit.sorted`     the batch ordered by span, start first;
* `Edit.checkEach`  every edit lies inside the text and on character boundaries;
* `Edit.checkPairs` no two neighbours of the sorted batch overlap;
* `Edit.splice`     the text with the sorted edits put in, in one pass from left to right;
* `Edit.applyAll`   the checks, then the splice.

Faults of single edits are reported before overlaps, each in span order.
-/

namespace Collate

/-- the replacement of the text under a span -/
structure Edit where
  span : Span
  replacement : Text
  deriving DecidableEq, Repr

inductive EditError where
  | outOfBounds (span : Span) (size : Nat)
  | splitsCharacter (span : Span)
  | overlap (first second : Span)
  /-- the text between two edits cannot be cut -/
  | gap (span : Span)
  deriving DecidableEq, Repr

def Span.describe (s : Span) : String :=
  s!"[{s.start}, {s.stop})"

def EditError.message : EditError → String
  | .outOfBounds s n => "edit out of bounds: " ++ s.describe ++ s!" in a {n}-byte buffer"
  | .splitsCharacter s => "edit splits a UTF-8 sequence: " ++ s.describe
  | .overlap a b => "overlapping edits: " ++ a.describe ++ " and " ++ b.describe
  | .gap s => "text between edits cannot be cut: " ++ s.describe

namespace Edit

def sorted (edits : List Edit) : List Edit :=
  sortBy (fun a b => a.span.before b.span) edits

/-- an edit on its own fits the text -/
def check (t : Text) (e : Edit) : Except EditError Unit :=
  if e.span.stop < e.span.start ∨ t.size < e.span.stop then
    .error (.outOfBounds e.span t.size)
  else if t.isBoundary e.span.start && t.isBoundary e.span.stop then
    .ok ()
  else
    .error (.splitsCharacter e.span)

def checkEach (t : Text) : List Edit → Except EditError Unit
  | [] => .ok ()
  | e :: es => do
    check t e
    checkEach t es

/-- no edit overlaps the one after it -/
def checkPairs : List Edit → Except EditError Unit
  | a :: b :: es =>
    if a.span.overlaps b.span then .error (.overlap a.span b.span) else checkPairs (b :: es)
  | _ => .ok ()

/-- the text from offset `cursor` on, with the edits put in -/
def splice (t : Text) (cursor : Nat) : List Edit → Except EditError Text
  | [] =>
    match t.slice? ⟨cursor, t.size⟩ with
    | some rest => .ok rest
    | none => .error (.gap ⟨cursor, t.size⟩)
  | e :: es => do
    let kept ←
      match t.slice? ⟨cursor, e.span.start⟩ with
      | some kept => .ok kept
      | none => .error (.gap ⟨cursor, e.span.start⟩)
    let rest ← splice t e.span.stop es
    return kept ++ e.replacement ++ rest

def applyAll (t : Text) (edits : List Edit) : Except EditError Text := do
  let batch := sorted edits
  checkEach t batch
  checkPairs batch
  splice t 0 batch

end Edit

end Collate
