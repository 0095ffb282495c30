import Collate.Grammar.Argument

/-!
# Parameters

The parameters of definitions and blocks.  A parameter comes in sight behind its default value, so
a default sees the parameters before it and not its own.

* `Parse.parameter`   one parameter;
* `Parse.parameters`  parameters with commas between them, up to a closing token.
-/

namespace Collate

namespace Parse

def startsParameter : Token.Kind → Bool
  | .ident _ | .label _ | .star | .doubleStar | .ampersand => true
  | _ => false

/-- a parameter with a name, which comes in sight -/
def namedParameter (kind : ParameterKind) (name : Text) (fallback : Option Tree) (span : Span) :
    Parse Tree := do
  declare name
  return ⟨.parameter kind (some name) fallback, span⟩

/-- a parameter that takes what is left over; its name has to stand close to the mark -/
def restParameter (kind : ParameterKind) (sign : Token) : Parse Tree := do
  let next ← current
  match next.kind, next.spaceBefore with
  | .ident name, false =>
    let _ ← advance
    namedParameter kind name none ⟨sign.span.start, next.span.stop⟩
  | .keyword .nil_, false =>
    let _ ← advance
    return ⟨.parameter kind none none, ⟨sign.span.start, next.span.stop⟩⟩
  | _, _ => return ⟨.parameter kind none none, sign.span⟩

def parameter (descend : Descent) (place : Place) : Parse Tree := do
  let token ← advance
  match token.kind with
  | .ident name =>
    if ← eat .assign then
      let fallback ← descend .expression place
      namedParameter .optional name (some fallback) ⟨token.span.start, fallback.span.stop⟩
    else
      namedParameter .required name none token.span
  | .label name =>
    if ← valueOmitted then
      namedParameter .keyword name none token.span
    else
      let fallback ← descend .expression place
      namedParameter .optionalKeyword name (some fallback) ⟨token.span.start, fallback.span.stop⟩
  | .star => restParameter .rest token
  | .doubleStar => restParameter .keywordRest token
  | .ampersand => restParameter .block token
  | _ => refuse token

/-- parameters up to a closing token, which is left -/
def parameters (descend : Descent) (place : Place) (closer : Option Token.Kind) :
    Parse (List Tree) := do
  if ← closes closer then return [] else separated (parameter descend place) none

end Parse

end Collate
