import Collate.Lint

/-!
# Correction

A text is read, linted and mended in rounds, until a round finds nothing to mend or eight rounds
have passed.  What a round defers, or what a mended text brings to light, is left to the next one.

* `Correction.round`   the text after one round and the number of edits in it;
* `Correction.run`     all rounds.

The reader is a parameter.  It is told the number of the round, from zero, and the text as it
stands.
-/

namespace Collate

/-- a text after correction -/
structure Correction where
  text : Text
  /-- the number of rounds, the last one included -/
  passes : Nat
  /-- the number of edits -/
  applied : Nat
  deriving DecidableEq, Repr

/-- why a round of correction fails -/
inductive CorrectionCause where
  | unreadable (message : String)
  | refused (error : EditError)
  /-- the nodes do not fit the text -/
  | fault (fault : Fault)
  deriving DecidableEq, Repr

/-- a cause and the number of the round, from one -/
structure CorrectionError where
  pass : Nat
  cause : CorrectionCause
  deriving DecidableEq, Repr

def CorrectionCause.message : CorrectionCause → String
  | .unreadable message => "read failed: " ++ message
  | .refused error => error.message
  | .fault _ => "the nodes do not fit the text"

def CorrectionError.message (e : CorrectionError) : String :=
  s!"autocorrect pass {e.pass}: " ++ e.cause.message

/-- a reader of documents: the number of the round and the text as it stands -/
abbrev DocumentReader := Nat → Text → Except String Document

def DocumentReader.standard : DocumentReader := fun _ t =>
  match Document.read t with
  | .ok document => .ok document
  | .error error => .error (error.display t)

namespace Correction

def passLimit : Nat := 8

def editsOf (reader : DocumentReader) (s : Settings) (pass : Nat) (t : Text) :
    Except CorrectionCause (List Edit) :=
  match reader pass t with
  | .error message => .error (.unreadable message)
  | .ok document =>
    match document.lint s true with
    | .error fault => .error (.fault fault)
    | .ok report => .ok report.edits

/-- one round: nothing when there is nothing to mend, and else the mended text and the number of
edits -/
def round (reader : DocumentReader) (s : Settings) (pass : Nat) (t : Text) :
    Except CorrectionCause (Option (Text × Nat)) := do
  let edits ← editsOf reader s pass t
  if edits.isEmpty then
    return none
  else
    match Edit.applyAll t edits with
    | .ok mended => return some (mended, edits.length)
    | .error error => throw (.refused error)

/-- the rounds that are left, given what the rounds before them did -/
def proceed (reader : DocumentReader) (s : Settings) :
    Nat → Correction → Except CorrectionError Correction
  | 0, done => .ok done
  | left + 1, done =>
    match round reader s done.passes done.text with
    | .error cause => .error ⟨done.passes + 1, cause⟩
    | .ok none => .ok { done with passes := done.passes + 1 }
    | .ok (some (mended, count)) =>
      proceed reader s left ⟨mended, done.passes + 1, done.applied + count⟩

def run (reader : DocumentReader) (s : Settings) (t : Text) : Except CorrectionError Correction :=
  proceed reader s passLimit ⟨t, 0, 0⟩

end Correction

end Collate
