import Collate.Text.Span

/-!
# Source text

Source text is a list of characters.  Offsets count the bytes of its UTF-8 form, so a character
takes one to four of them and an offset may fall inside a character.

* `Text.size`       the number of bytes;
* `Text.drop?`      the text after a number of bytes, if that is a character boundary;
* `Text.take?`      the text up to a number of bytes, if that is a character boundary;
* `Text.slice`      the text under a span, or the `Fault` that the span does not fit;
* `Span.ofBounds`   the span between two offsets, unless it is reversed;
* `Text.before`     the order of texts, character by character.
-/

namespace Collate

/-- source text, and every piece that is cut from it -/
abbrev Text := List Char

/-- why a piece of text could not be found, cut or put together -/
inductive Fault where
  /-- the span is reversed, runs past the end of the text or splits a character -/
  | span (span : Span)
  /-- a sequence has no entry of this index -/
  | entry (index : Nat)
  /-- lines are numbered from one, and no line has this number -/
  | line (number : Nat)
  /-- the column of this offset is too large to be numbered -/
  | column (offset : Nat)
  deriving DecidableEq, Repr

def Span.ofBounds (start stop : Nat) : Except Fault Span :=
  if start ≤ stop then .ok ⟨start, stop⟩ else .error (.span ⟨start, stop⟩)

namespace Text

def size : Text → Nat
  | [] => 0
  | c :: cs => c.utf8Size + size cs

/-- what is left after `n` bytes; nothing when `n` is past the end or inside a character -/
def drop? : Nat → Text → Option Text
  | 0, cs => some cs
  | _ + 1, [] => none
  | n + 1, c :: cs => if c.utf8Size ≤ n + 1 then drop? (n + 1 - c.utf8Size) cs else none
termination_by structural _ cs => cs

/-- the first `n` bytes; nothing when `n` is past the end or inside a character -/
def take? : Nat → Text → Option Text
  | 0, _ => some []
  | _ + 1, [] => none
  | n + 1, c :: cs =>
    if c.utf8Size ≤ n + 1 then (take? (n + 1 - c.utf8Size) cs).map (c :: ·) else none
termination_by structural _ cs => cs

/-- the offset falls between two characters, or at an end of the text -/
def isBoundary (t : Text) (offset : Nat) : Bool :=
  (drop? offset t).isSome

def slice? (t : Text) (s : Span) : Option Text :=
  if s.start ≤ s.stop then (drop? s.start t).bind (take? (s.stop - s.start)) else none

/-- the text under a span, with the fault named -/
def slice (t : Text) (s : Span) : Except Fault Text :=
  match t.slice? s with
  | some piece => .ok piece
  | none => .error (.span s)

/-- The text comes no later than another, character by character.  UTF-8 keeps the order of
characters, so this is also the order of the bytes. -/
def before : Text → Text → Bool
  | [], _ => true
  | _ :: _, [] => false
  | c :: cs, d :: ds => if c = d then before cs ds else decide (c.toNat < d.toNat)

@[simp]
theorem size_nil : size [] = 0 := rfl

@[simp]
theorem size_cons (c : Char) (cs : Text) : size (c :: cs) = c.utf8Size + size cs := rfl

@[simp]
theorem size_append (s t : Text) : size (s ++ t) = size s + size t := by
  induction s with
  | nil => simp
  | cons c cs ih => simp [ih, Nat.add_assoc]

end Text

end Collate
