import Collate.Json.Reader
import Collate.Text.Basic

/-!
# Settings

The settings of the rules, read from a document with one section per rule.  A section is read
leniently: what it does not have, or has in the wrong form, keeps its default.

* `RuleSettings`        the settings of one rule;
* `RuleSettings.ofJson` a section;
* `Settings.ofJson`     a document;
* `Settings.ofText`     the text of a document;
* `Settings.rule`       the settings of a rule by name.
-/

namespace Collate

structure RuleSettings where
  enabled : Bool := true
  /-- abbreviated entries come first -/
  shorthandsFirst : Bool := false
  /-- calls whose literals are left alone, in order -/
  excludeMethods : List Text := []
  /-- calls that a rule for calls looks at, in order -/
  methods : List Text := []
  deriving DecidableEq, Repr

/-- the text in its place in an ordered list, unless the list has it -/
def insertText (t : Text) : List Text → List Text
  | [] => [t]
  | u :: us =>
    if t = u then u :: us
    else if t.before u then t :: u :: us
    else u :: insertText t us

/-- the texts of a list of values, in order and each once; what is no list has none -/
def textSet (value : Option Json) : List Text :=
  match value.bind Json.items? with
  | some items => (items.filterMap Json.str?).foldl (fun set text => insertText text.toList set) []
  | none => []

def RuleSettings.ofJson (part : Json) : RuleSettings where
  enabled := ((part.field? "Enabled").bind Json.bool?).getD true
  shorthandsFirst := ((part.field? "ShorthandsFirst").bind Json.bool?).getD false
  excludeMethods := textSet (part.field? "ExcludeMethods")
  methods := textSet (part.field? "Methods")

/-- the sections of a document that belong to rules, by name -/
structure Settings where
  sections : List (String × RuleSettings)
  deriving DecidableEq, Repr

inductive SettingsError where
  | notData
  /-- the document is no object -/
  | notObject
  /-- the document is of another version -/
  | version (got : Json)

def Settings.schemaVersion : String := "canon.config@0.1.0"

/-- The wording of a refusal.  What the reader of data adds about the place in a text that is no data is left out. -/
def SettingsError.message : SettingsError → String
  | .notData => "config is not valid JSON"
  | .notObject => "config root must be a JSON object"
  | .version got =>
    "config schema_version mismatch: expected " ++ Settings.schemaVersion ++ " got " ++ got.render

namespace Settings

/-- no section: every rule has its defaults -/
def default : Settings := ⟨[]⟩

def isRuleSection (name : String) : Bool :=
  "Canon/".toList.isPrefixOf name.toList

/-- the document is of the version that is read, or names none -/
def checkVersion (document : Json) : Except SettingsError Unit :=
  match document.field? "schema_version" with
  | none => .ok ()
  | some version =>
    if version.str? = some schemaVersion then .ok () else .error (.version version)

def ofJson (document : Json) : Except SettingsError Settings :=
  match document.fields? with
  | none => .error .notObject
  | some fields => do
    checkVersion document
    return ⟨(fields.filter (fun field => isRuleSection field.1)).map
      (fun field => (field.1, .ofJson field.2))⟩

def ofText (t : Text) : Except SettingsError Settings :=
  match Json.read t with
  | some document => ofJson document
  | none => .error .notData

def rule (s : Settings) (name : String) : RuleSettings :=
  (s.sections.lookup name).getD {}

end Settings

end Collate
