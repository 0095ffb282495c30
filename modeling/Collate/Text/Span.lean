/-!
# Byte spans

A span is a half-open range of byte offsets into a text.  This file has the interval operations
that edits and layout are built on:

* `Span.join`      the smallest span that covers two spans;
* `Span.contains`  one span lies inside another;
* `Span.overlaps`  two spans claim a common byte, or the same insertion point;
* `Span.before`    the order of spans by start, then by end.

Nothing here looks at a text: whether a span falls on characters is decided by `Text.slice`.
-/

namespace Collate

/-- the byte offsets from `start` up to, and not including, `stop` -/
structure Span where
  start : Nat
  stop : Nat
  deriving DecidableEq, Repr, Inhabited

/-- an opening and a closing mark around a construct -/
structure Delimiters where
  opening : Span
  closing : Span
  deriving DecidableEq, Repr

namespace Span

def join (a b : Span) : Span :=
  ⟨min a.start b.start, max a.stop b.stop⟩

def length (a : Span) : Nat :=
  a.stop - a.start

def isEmpty (a : Span) : Bool :=
  a.start == a.stop

/-- `b` lies inside `a` -/
def contains (a b : Span) : Bool :=
  decide (a.start ≤ b.start) && decide (b.stop ≤ a.stop)

/-- The spans share a byte.  Two empty spans overlap when they stand at the same offset, because
the order of two insertions there would be open. -/
def overlaps (a b : Span) : Bool :=
  if a.isEmpty && b.isEmpty then
    a.start == b.start
  else
    decide (a.start < b.stop) && decide (b.start < a.stop)

/-- `a` comes no later than `b`: by start, then by end -/
def before (a b : Span) : Bool :=
  decide (a.start < b.start) || (a.start == b.start && decide (a.stop ≤ b.stop))

end Span

end Collate
