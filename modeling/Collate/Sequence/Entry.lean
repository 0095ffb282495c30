import Collate.Document
import Collate.Text.Word

/-!
# Entries and sequences

An entry is an element of a construct that can change places with its siblings: a pair, a symbol
argument or a keyword parameter.  A sequence is the entries of one construct, with the span that
decides their layout.

* `Attempt`               a computation with a value, without one, or with a fault of the text;
* `Entry.ofPair` and its like   the entry of a node, if it is one;
* `Sequence.ofSiblings`   the entries among the children of a construct;
* `Sequence.range`        from the first entry to the last;
* `Sequence.hasDuplicateKeys`   two entries have one key.
-/

namespace Collate

/-- a computation that may find no value, and that fails when spans do not fit the text -/
abbrev Attempt := OptionT (Except Fault)

inductive EntryKind where
  | pair
  | symbolArgument
  | keywordParameter
  deriving DecidableEq, Repr

/-- an element that can change places with its siblings -/
structure Entry where
  kind : EntryKind
  key : Text
  text : Text
  span : Span
  /-- the text is the key and a colon alone -/
  shorthand : Bool
  line : Nat
  deriving DecidableEq, Repr

namespace Entry

def ofNode (d : Document) (id : Nat) (kind : EntryKind) (key : Text) : Attempt Entry := do
  let text ← d.source id
  return ⟨kind, key, text, d.span id, text.isShorthand, d.text.firstLine (d.span id)⟩

def ofPair (d : Document) (id : Nat) : Attempt Entry := do
  match d.node id with
  | .pair key _ _ =>
    match d.symbolName key with
    | some name => ofNode d id .pair name
    | none => failure
  | _ => failure

def ofSymbol (d : Document) (id : Nat) : Attempt Entry := do
  match d.symbolName id with
  | some name => ofNode d id .symbolArgument name
  | none => failure

def ofParameter (d : Document) (id : Nat) : Attempt Entry := do
  match d.node id with
  | .parameter kind (some name) _ =>
    if kind.isKeyword then ofNode d id .keywordParameter name else failure
  | _ => failure

end Entry

def hasDuplicates : List Text → Bool
  | [] => false
  | key :: keys => keys.contains key || hasDuplicates keys

/-- the entries of one construct -/
structure Sequence where
  entries : List Entry
  /-- the span whose lines decide the layout -/
  container : Span
  /-- the marks around the container, if it has them -/
  braces : Option Delimiters
  /-- a sibling that is no entry stands between two entries -/
  interleaved : Bool
  deriving DecidableEq, Repr

namespace Sequence

/-- the list without the missing values at its ends has a missing value -/
def hasGap {α : Type} (xs : List (Option α)) : Bool :=
  ((xs.dropWhile Option.isNone).reverse.dropWhile Option.isNone).any Option.isNone

/-- from the start of the first entry to the end of the last one -/
def range (s : Sequence) : Span :=
  match s.entries.head?, s.entries.getLast? with
  | some first, some last => first.span.join last.span
  | _, _ => s.container

def hasDuplicateKeys (s : Sequence) : Bool :=
  hasDuplicates (s.entries.map (·.key))

/-- the entry of every sibling that is one -/
def entriesOf (siblings : List Nat) (entry : Nat → Attempt Entry) :
    Except Fault (List (Option Entry)) :=
  siblings.mapM (fun id => (entry id).run)

/-- The entries among siblings, provided that there are two of them and all keys differ.  The
entries themselves are the container. -/
def ofSiblings (siblings : List Nat) (container : Span) (entry : Nat → Attempt Entry) :
    Attempt Sequence := do
  let found ← entriesOf siblings entry
  let all : Sequence := ⟨found.filterMap id, container, none, hasGap found⟩
  if all.entries.length < 2 || all.hasDuplicateKeys then
    failure
  else
    return { all with container := all.range }

end Sequence

end Collate
