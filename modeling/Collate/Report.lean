import Collate.Json.Basic
import Collate.Text.Edit
import Collate.Text.Lines

/-!
# Reports

Diagnostics in the order in which they are reported, and their form as data.

* `Diagnostic`             a finding with its place, its notes and the edit that mends it;
* `Diagnostic.before`      the order of a report: by offset, then by code, then by message;
* `Report.ofDiagnostics`   the sorted report;
* `Report.edits`           all edits of a report, in span order;
* `Diagnostic.toJson`, `Report.toJson`   the form as data.
-/

namespace Collate

inductive Severity where
  | error
  | warning
  | info
  deriving DecidableEq, Repr

/-- the step of the work that a finding comes from -/
inductive Stage where
  | read
  | config
  | lint
  | correction
  deriving DecidableEq, Repr

/-- where a finding is, and the line it is on -/
structure Location where
  start : Position
  stop : Position
  file : Option String
  snippet : Option Text
  deriving DecidableEq, Repr

/-- the location of a span, with the line on which it begins -/
def Location.of (t : Text) (s : Span) : Location :=
  ⟨t.position s.start, t.position s.stop, none, some (t.sourceLine (t.firstLine s))⟩

/-- the location of a span in a program that treats overflow so -/
def Location.place (overflow : Overflow) (t : Text) (s : Span) : Except Fault Location := do
  let start ← t.place overflow s.start
  let stop ← t.place overflow s.stop
  return ⟨start, stop, none, some (t.sourceLine (t.firstLine s))⟩

/-- the location of a span whose columns have successors in 32 bits -/
def Location.find (t : Text) (s : Span) : Except Fault Location :=
  Location.place .stop t s

/-- a finding -/
structure Diagnostic where
  code : String
  severity : Severity
  stage : Stage
  message : String
  location : Option Location
  notes : List String
  anchor : Option Text
  /-- the edit that mends it -/
  fix : Option Edit
  deriving DecidableEq, Repr

namespace Diagnostic

/-- a failure that belongs to no place in a text -/
def failure (code : String) (stage : Stage) (message : String) : Diagnostic :=
  ⟨code, .error, stage, message, none, [], none, none⟩

/-- the offset of the location; zero without one -/
def offset (d : Diagnostic) : Nat :=
  (d.location.bind (·.start.offset)).getD 0

/-- `a` comes no later than `b`: by offset, then by code, then by message -/
def before (a b : Diagnostic) : Bool :=
  if a.offset ≠ b.offset then decide (a.offset < b.offset)
  else if a.code ≠ b.code then decide (a.code < b.code)
  else decide (a.message ≤ b.message)

end Diagnostic

/-- the findings of one run, in order -/
structure Report where
  diagnostics : List Diagnostic
  deriving DecidableEq, Repr

namespace Report

def schemaVersion : String := "canon.report@0.1.0"

def ofDiagnostics (diagnostics : List Diagnostic) : Report :=
  ⟨sortBy Diagnostic.before diagnostics⟩

def ok (r : Report) : Bool :=
  r.diagnostics.isEmpty

/-- all edits, in span order -/
def edits (r : Report) : List Edit :=
  Edit.sorted (r.diagnostics.filterMap (·.fix))

end Report

/-! ## data -/

def Severity.word : Severity → String
  | error => "error"
  | warning => "warning"
  | info => "info"

def Stage.word : Stage → String
  | read => "read"
  | config => "config"
  | lint => "lint"
  | correction => "rewrite"

/-- a field that is left out when it has no value -/
def optionalField (name : String) (value : Option Json) : List (String × Json) :=
  (value.map (fun held => (name, held))).toList

def Text.toJson (t : Text) : Json :=
  .str (String.ofList t)

def Position.toJson (p : Position) : Json :=
  .obj ([("line", .ofNat p.line), ("col", .ofNat p.column)]
    ++ optionalField "offset" (p.offset.map Json.ofNat))

def Location.toJson (l : Location) : Json :=
  let span : Json :=
    .obj ([("start", l.start.toJson), ("end", l.stop.toJson)]
      ++ optionalField "file" (l.file.map Json.str))
  .obj ([("kind", .str "text"), ("span", span)]
    ++ optionalField "snippet" (l.snippet.map Text.toJson))

def Edit.toJson (e : Edit) : Json :=
  .obj [("start", .ofNat e.span.start), ("end", .ofNat e.span.stop),
    ("replacement", e.replacement.toJson)]

def Diagnostic.toJson (d : Diagnostic) : Json :=
  .obj ([("code", .str d.code), ("severity", .str d.severity.word), ("stage", .str d.stage.word),
      ("message", .str d.message)]
    ++ optionalField "loc" (d.location.map Location.toJson)
    ++ optionalField "notes" (if d.notes.isEmpty then none else some (.ofStrings d.notes))
    ++ optionalField "data" (d.anchor.map (fun anchor => .obj [("anchor", anchor.toJson)]))
    ++ optionalField "quickfix" (d.fix.map (fun edit =>
        .obj [("kind", .str "text_edit"), ("edits", .arr [edit.toJson])])))

def Report.toJson (r : Report) : Json :=
  .obj [("schema_version", .str schemaVersion), ("ok", .bool r.ok),
    ("diagnostics", .arr (r.diagnostics.map Diagnostic.toJson))]

end Collate
