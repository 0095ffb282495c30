import Collate.Report
import Collate.Rule.Ordering
import Collate.Rule.Shorthand

/-!
# Linting

Every rule that is switched on looks at every node, parents before children.  The edits of the
offenses are admitted in that order: one that overlaps an edit admitted before it is deferred, so
the edits of a report can be applied together.

* `Rule.check`          a rule at a node;
* `Document.offenses`   all offenses, in the order of the visits;
* `Ruling.ofOffenses`        which edits are admitted and which are deferred;
* `Document.lint`       the report;
* `Document.lintIn`     the report of a program that stops when a column overflows, or cuts it.
-/

namespace Collate

/-- what a rule finds at a node -/
def Rule.check (rule : Rule) (s : Settings) (d : Document) (id : Nat) : Attempt Offense :=
  match rule with
  | .literalOrder => checkLiteral (s.rule rule.name) d id
  | .keywordOrder => checkKeywords (s.rule rule.name) d id
  | .symbolOrder => checkSymbols (s.rule rule.name) d id
  | .parameterOrder => checkDefinition d id
  | .shorthand => checkShorthand d id

namespace Document

/-- the nodes and rules in the order of the visits -/
def visits (d : Document) (s : Settings) : List (Nat × Rule) :=
  d.preorder.flatMap (fun id => (Rule.enabled s).map (fun rule => (id, rule)))

def offensesAt (d : Document) (s : Settings) : List (Nat × Rule) → Except Fault (List Offense)
  | [] => .ok []
  | (id, rule) :: rest => do
    let found ← (rule.check s d id).run
    let others ← offensesAt d s rest
    return found.toList ++ others

def offenses (d : Document) (s : Settings) : Except Fault (List Offense) :=
  d.offensesAt s (d.visits s)

end Document

/-- an offense and what becomes of its edit -/
structure Ruling where
  offense : Offense
  /-- the edit, if it is admitted -/
  fix : Option Edit
  /-- the edit overlaps one that was admitted before it -/
  deferred : Bool
  deriving DecidableEq, Repr

namespace Ruling

def deferredNote : String :=
  "correction deferred: overlaps another correction"

/-- an offense whose edit is not asked for, or that has none -/
def plain (offense : Offense) : Ruling :=
  ⟨offense, none, false⟩

/-- the rulings on a list of offenses, given the spans of the edits that are admitted already -/
def ofOffenses (held : List Span) : List Offense → List Ruling
  | [] => []
  | offense :: rest =>
    match offense.edit with
    | none => plain offense :: ofOffenses held rest
    | some edit =>
      if held.any (fun span => span.overlaps edit.span) then
        ⟨offense, none, true⟩ :: ofOffenses held rest
      else
        ⟨offense, some edit, false⟩ :: ofOffenses (held ++ [edit.span]) rest

/-- the finding that reports a ruling, in a program that treats overflow so -/
def diagnosticIn (overflow : Overflow) (t : Text) (r : Ruling) : Except Fault Diagnostic := do
  let anchor ← t.slice r.offense.anchor
  let location ← Location.place overflow t r.offense.anchor
  return {
    code := r.offense.rule.name
    severity := .warning
    stage := .lint
    message := r.offense.message
    location := some location
    notes := r.offense.note.toList ++ (if r.deferred then [deferredNote] else [])
    anchor := some anchor
    fix := r.fix }

def diagnostic (t : Text) (r : Ruling) : Except Fault Diagnostic :=
  diagnosticIn .cut t r

end Ruling

/-- the edit of an offense is not reversed -/
def Offense.checkEdit (o : Offense) : Except Fault Unit :=
  match o.edit with
  | some edit => if edit.span.start ≤ edit.span.stop then .ok () else .error (.span edit.span)
  | none => .ok ()

namespace Document

/-- the rulings on all offenses; without correction no edit is asked for -/
def rulings (d : Document) (s : Settings) (correct : Bool) : Except Fault (List Ruling) := do
  let offenses ← d.offenses s
  if correct then
    offenses.forM Offense.checkEdit
    return Ruling.ofOffenses [] offenses
  else
    return offenses.map Ruling.plain

/-- the report on a document, in a program that treats overflow so -/
def lintIn (overflow : Overflow) (d : Document) (s : Settings) (correct : Bool) :
    Except Fault Report := do
  let rulings ← d.rulings s correct
  return Report.ofDiagnostics (← rulings.mapM (Ruling.diagnosticIn overflow d.text))

def lint (d : Document) (s : Settings) (correct : Bool) : Except Fault Report :=
  d.lintIn .cut s correct

end Document

end Collate
