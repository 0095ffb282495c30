import Collate.Text.Basic

/-!
# White space

The white space characters of Unicode, and the texts without the white space at their ends.

* `isBlank`            a character is white space;
* `Text.trimStart`     the text from its first other character on;
* `Text.trim`          the same at both ends.
-/

namespace Collate

/-- first and last code point of each run of white space -/
def blankRanges : List (Nat × Nat) := [
  (0x09, 0x0D), (0x20, 0x20), (0x85, 0x85), (0xA0, 0xA0), (0x1680, 0x1680), (0x2000, 0x200A),
  (0x2028, 0x2029), (0x202F, 0x202F), (0x205F, 0x205F), (0x3000, 0x3000)]

def isBlank (c : Char) : Bool :=
  blankRanges.any (fun range => decide (range.1 ≤ c.toNat) && decide (c.toNat ≤ range.2))

namespace Text

def trimStart (t : Text) : Text :=
  t.dropWhile isBlank

def trim (t : Text) : Text :=
  (t.trimStart.reverse.dropWhile isBlank).reverse

end Text

end Collate
