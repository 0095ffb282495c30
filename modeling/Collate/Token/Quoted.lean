import Collate.ReadError

/-!
# Quoted text

The content of a quoted text runs to the first quote that no backslash precedes.  Between double
quotes an interpolation, from `#` and an opening brace to the brace that closes it, is passed over;
quotes and backslashes mean nothing inside it.

* `QuoteState`     where the scan stands;
* `quotedContent`  the content up to the closing quote, as it is written.
-/

namespace Collate

/-- where the scan of a quoted text stands -/
inductive QuoteState where
  /-- between two items of the content -/
  | plain
  /-- right after a backslash -/
  | escaped
  /-- inside an interpolation with this many open braces -/
  | interpolated (depth : Nat)
  deriving DecidableEq, Repr

def quotedContent (quote : Char) : QuoteState → Text → Except ReadCause Text
  | .plain, [] => .error .unterminatedString
  | .escaped, [] => .error .unterminatedString
  | .interpolated _, [] => .error .unterminatedInterpolation
  | .escaped, c :: cs => (quotedContent quote .plain cs).map (c :: ·)
  | .interpolated depth, c :: cs =>
    if c = '{' then
      (quotedContent quote (.interpolated (depth + 1)) cs).map (c :: ·)
    else if c = '}' then
      if depth ≤ 1 then
        (quotedContent quote .plain cs).map (c :: ·)
      else
        (quotedContent quote (.interpolated (depth - 1)) cs).map (c :: ·)
    else
      (quotedContent quote (.interpolated depth) cs).map (c :: ·)
  | .plain, c :: cs =>
    if c = '\\' then
      (quotedContent quote .escaped cs).map (c :: ·)
    else if c = quote then
      .ok []
    else if c = '#' ∧ quote = '"' ∧ cs.head? = some '{' then
      (quotedContent quote (.interpolated 0) cs).map (c :: ·)
    else
      (quotedContent quote .plain cs).map (c :: ·)

end Collate
