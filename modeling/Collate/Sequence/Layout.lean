import Collate.Sequence.Order
import Collate.Text.Blank
import Collate.Text.Edit

/-!
# Layout

Putting the entries of a sequence into another order.  The texts of the entries are kept as they
are; what stands between them depends on the container.

* On one line the entries are separated by a comma and a blank.
* Between braces on several lines every entry gets a line of its own, with the indentation of the
  first one; a comma behind the last entry is kept.
* Without braces on several lines every entry but the first is indented to the column of the
  first one.
* When other siblings stand between the entries, all text between them is kept, and the entries
  change places only.

`Sequence.edit` is the edit that does this.
-/

namespace Collate

/-- the container stands on one line or on several -/
inductive Layout where
  | single
  | multi
  deriving DecidableEq, Repr

def Layout.of (t : Text) (container : Span) : Layout :=
  if t.isSingleLine container then .single else .multi

def joinTexts (separator : Text) : List Text → Text
  | [] => []
  | [text] => text
  | text :: texts => text ++ separator ++ joinTexts separator texts

/-- a carriage return and a line feed occur next to each other -/
def hasReturnFeed : Text → Bool
  | '\r' :: '\n' :: _ => true
  | _ :: rest => hasReturnFeed rest
  | [] => false

namespace Sequence

/-- the line end to write inside a container: the one it has -/
def lineEnd (t : Text) (container : Span) : Except Fault Text := do
  let inside ← t.slice container
  return if hasReturnFeed inside then ['\r', '\n'] else ['\n']

def entry (s : Sequence) (index : Nat) : Except Fault Entry :=
  match s.entries[index]? with
  | some entry => .ok entry
  | none => .error (.entry index)

def texts (s : Sequence) (order : List Nat) : Except Fault (List Text) :=
  order.mapM (fun index => do return (← s.entry index).text)

/-- The indentation of the first entry: that of its line if it is the first thing on it, and else
as many blanks as its column. -/
def entryIndent (t : Text) (start : Nat) : Text :=
  let indent := t.indentation start
  if indent.size = t.columnOf start then indent else List.replicate (t.columnOf start) ' '

/-- a line for every text, with commas between them and perhaps behind the last one -/
def entryLines (indent lineEnd : Text) (trailing : Bool) : List Text → Text
  | [] => []
  | [text] => indent ++ text ++ (if trailing then [','] else []) ++ lineEnd
  | text :: texts =>
    indent ++ text ++ [','] ++ lineEnd ++ entryLines indent lineEnd trailing texts

/-- the first thing in a text that is not white space is a comma -/
def startsWithComma (t : Text) : Bool :=
  t.trimStart.head? == some ','

/-- the entries between braces on several lines -/
def bracedEdit (t : Text) (s : Sequence) (braces : Delimiters) (order : List Nat) :
    Except Fault Edit := do
  let first ← s.entry 0
  let last ← s.entry (s.entries.length - 1)
  let behind ← t.slice ⟨last.span.stop, braces.closing.start⟩
  let lineEnd ← lineEnd t s.container
  let opening ← t.slice braces.opening
  let closing ← t.slice braces.closing
  let texts ← s.texts order
  let lines := entryLines (entryIndent t first.span.start) lineEnd (startsWithComma behind) texts
  return ⟨braces.opening.join braces.closing,
    opening ++ lineEnd ++ lines ++ t.indentation s.container.start ++ closing⟩

/-- the entries without braces on several lines -/
def bareEdit (t : Text) (s : Sequence) (order : List Nat) : Except Fault Edit := do
  let first ← s.entry 0
  let lineEnd ← lineEnd t s.container
  let indent := List.replicate (t.columnOf first.span.start) ' '
  let texts ← s.texts order
  return ⟨s.range, joinTexts (',' :: lineEnd ++ indent) texts⟩

def singleLineEdit (s : Sequence) (order : List Nat) : Except Fault Edit := do
  return ⟨s.range, joinTexts [',', ' '] (← s.texts order)⟩

/-- the texts in the places of the entries, with all that stands between those places -/
def fillSlots (t : Text) (cursor : Nat) : List Entry → List Text → Except Fault Text
  | slot :: slots, text :: texts => do
    let between ← t.slice ⟨cursor, slot.span.start⟩
    let rest ← fillSlots t slot.span.stop slots texts
    return between ++ text ++ rest
  | _, _ => .ok []

/-- the entries in their places among other siblings -/
def interleavedEdit (t : Text) (s : Sequence) (order : List Nat) : Except Fault Edit := do
  let texts ← s.texts (order.take s.entries.length)
  return ⟨s.range, ← fillSlots t s.range.start s.entries texts⟩

def edit (t : Text) (s : Sequence) (order : List Nat) : Except Fault Edit :=
  if s.interleaved then
    interleavedEdit t s order
  else
    match Layout.of t s.container, s.braces with
    | .single, _ => singleLineEdit s order
    | .multi, some braces => bracedEdit t s braces order
    | .multi, none => bareEdit t s order

end Sequence

end Collate
