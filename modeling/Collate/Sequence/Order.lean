import Collate.Sequence.Entry

/-!
# Canonical order

Entries are ordered by key, character by character.  A policy may put the abbreviated entries in
front of all others.  The order is given as a permutation: the index of the entry that belongs in
each place.

* `Policy.le`       one entry may stand before another;
* `Policy.order`    the canonical permutation of a list of entries;
* `isIdentity`      a permutation that leaves every entry in its place.
-/

namespace Collate

structure Policy where
  /-- abbreviated entries come first -/
  shorthandsFirst : Bool
  deriving DecidableEq, Repr

namespace Policy

def alphabetical : Policy := ⟨false⟩

/-- `a` may stand before `b` -/
def le (p : Policy) (a b : Entry) : Bool :=
  if p.shorthandsFirst && a.shorthand != b.shorthand then
    a.shorthand
  else
    a.key.before b.key

/-- the index of the entry that belongs in each place -/
def order (p : Policy) (entries : List Entry) : List Nat :=
  (sortBy (fun a b => p.le a.1 b.1) entries.zipIdx).map (·.2)

end Policy

def isIdentity (order : List Nat) : Bool :=
  order == List.range order.length

end Collate
