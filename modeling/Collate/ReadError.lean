import Collate.Text.Lines

/-!
# Reading errors

Why a source text cannot be read, and where.  The cause is a value of `ReadCause`; its wording is
given in one place, `ReadCause.message`.

* `ReadCause.message`   the wording of a cause;
* `ReadError.position`  line and column of an error in its text;
* `ReadError.display`   position and wording on one line.
-/

namespace Collate

/-- why a source text cannot be read -/
inductive ReadCause where
  | unterminatedString
  | unterminatedInterpolation
  | namelessVariable
  | strayColon
  | ternary
  | strayCharacter (c : Char)
  /-- a token that does not fit; nothing stands for the end of the text -/
  | unexpected (found : Option Text)
  | expected (wanted : String) (found : Option Text)
  /-- a key of a braced literal is not followed by an arrow -/
  | missingArrow (found : Option Text)
  | misplacedLabel
  /-- the reader was given too few steps -/
  | outOfSteps
  deriving DecidableEq, Repr

/-- a token as error texts show it -/
def describeFound : Option Text → String
  | some text => "`" ++ String.ofList text ++ "`"
  | none => "end of input"

def ReadCause.message : ReadCause → String
  | .unterminatedString => "unterminated string literal"
  | .unterminatedInterpolation => "unterminated interpolation"
  | .namelessVariable => "expected a variable name after `@`"
  | .strayColon => "unsupported use of `:`"
  | .ternary => "the ternary operator is not supported"
  | .strayCharacter c => "unexpected character `" ++ String.ofList [c] ++ "`"
  | .unexpected found => "unexpected " ++ describeFound found
  | .expected wanted found => "expected " ++ wanted ++ ", found " ++ describeFound found
  | .missingArrow found => "expected `=>` in hash literal, found " ++ describeFound found
  | .misplacedLabel => "a `key:` label is only supported in an argument list or hash literal"
  | .outOfSteps => "the reader ran out of steps"

/-- a cause and the offset at which it was found -/
structure ReadError where
  cause : ReadCause
  offset : Nat
  deriving DecidableEq, Repr

namespace ReadError

/-- the place of an error in the text that was read -/
def position (e : ReadError) (t : Text) : Position :=
  t.position e.offset

def display (e : ReadError) (t : Text) : String :=
  let p := e.position t
  s!"{p.line}:{p.column}: " ++ e.cause.message

end ReadError

end Collate
