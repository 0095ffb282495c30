import Collate.Text.Basic

/-!
# Lines and positions

Lines are numbered from one and end with a line feed.  The table of line starts is the offset zero
and the offset after every line feed; every other notion is read off this table.

* `Text.lineStarts`   the table;
* `Text.lineOf`       the line of an offset: the number of line starts up to it;
* `Text.columnOf`     the distance to the start of that line;
* `Text.sourceLine`   the characters of a line without its line end;
* `Text.indentation`  the blanks and tabs that open the line of an offset;
* `Text.position`     line, column and offset as reports show them, each number cut to 32 bits;
* `Text.findLine`, `Text.findPosition`   the same where a number without a successor is a fault;
* `Text.place`        one or the other, as the program treats overflow.

An offset past the end of the text counts as one of its last line, so its column can be larger than
any text.
-/

namespace Collate

/-- a place in a text: line and column from one, the column and the offset in bytes -/
structure Position where
  line : Nat
  column : Nat
  offset : Option Nat
  deriving DecidableEq, Repr

/-- line and column of a position are kept in 32 bits, and stay below this -/
def positionLimit : Nat := 4294967296

/-- what becomes of a sum that 32 bits cannot hold -/
inductive Overflow where
  /-- it is cut -/
  | cut
  /-- the program stops -/
  | stop
  deriving DecidableEq, Repr

namespace Text

/-- the offsets that follow a line feed, for a text that starts at `offset` -/
def lineBreaks (offset : Nat) : Text → List Nat
  | [] => []
  | c :: cs =>
    if c = '\n' then (offset + c.utf8Size) :: lineBreaks (offset + c.utf8Size) cs
    else lineBreaks (offset + c.utf8Size) cs

def lineStarts (t : Text) : List Nat :=
  0 :: lineBreaks 0 t

/-- the line that holds an offset -/
def lineOf (t : Text) (offset : Nat) : Nat :=
  t.lineStarts.countP (fun start => decide (start ≤ offset))

/-- the start of a line; a number past the last line means the last line -/
def lineStart (t : Text) (line : Nat) : Nat :=
  t.lineStarts.getD (min (line - 1) (t.lineStarts.length - 1)) 0

/-- the distance of an offset from the start of its line -/
def columnOf (t : Text) (offset : Nat) : Nat :=
  offset - t.lineStart (t.lineOf offset)

/-- the end of a line: its line feed, or the end of the text -/
def lineStop (t : Text) (line : Nat) : Nat :=
  match t.lineStarts[line]? with
  | some next => next - 1
  | none => t.size

def dropReturns (t : Text) : Text :=
  (t.reverse.dropWhile (· == '\r')).reverse

/-- the characters of a line, without the line feed and the carriage returns before it -/
def sourceLine (t : Text) (line : Nat) : Text :=
  ((t.slice? ⟨t.lineStart line, t.lineStop line⟩).getD []).dropReturns

/-- the blanks and tabs at the start of the line that holds an offset -/
def indentation (t : Text) (offset : Nat) : Text :=
  (t.sourceLine (t.lineOf offset)).takeWhile (fun c => c == ' ' || c == '\t')

def firstLine (t : Text) (s : Span) : Nat :=
  t.lineOf s.start

/-- the line of the last byte of a span; an empty span has the line of its offset -/
def lastLine (t : Text) (s : Span) : Nat :=
  if s.isEmpty then t.lineOf s.start else t.lineOf (s.stop - 1)

def isSingleLine (t : Text) (s : Span) : Bool :=
  t.firstLine s == t.lastLine s

def position (t : Text) (offset : Nat) : Position where
  line := t.lineOf offset % positionLimit
  column := (t.columnOf offset + 1) % positionLimit
  offset := some offset

/-- the characters of a line; there is no line zero -/
def findLine (t : Text) (line : Nat) : Except Fault Text :=
  if line = 0 then .error (.line line) else .ok (t.sourceLine line)

/-- the place of an offset whose column has a successor in 32 bits -/
def findPosition (t : Text) (offset : Nat) : Except Fault Position :=
  if (t.columnOf offset + 1) % positionLimit = 0 then .error (.column offset)
  else .ok (t.position offset)

/-- the place of an offset in a program that treats overflow so -/
def place (overflow : Overflow) (t : Text) (offset : Nat) : Except Fault Position :=
  match overflow with
  | .cut => .ok (t.position offset)
  | .stop => t.findPosition offset

end Text

end Collate
