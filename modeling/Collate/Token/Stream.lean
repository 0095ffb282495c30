import Collate.Token.Lexeme

/-!
# The tokens of a text

A text is cut into pieces, each of them a token or something between tokens, and the pieces are
then put in their places.

* `Piece.read`          the piece at the front of a text;
* `Piece.readAll`       all pieces; their characters, in order, are the text;
* `TokenStream.place`   the pieces with their spans, and the flags for what stands before a token;
* `TokenStream.read`    the tokens and comments of a text.
-/

namespace Collate

inductive Piece.Sort where
  /-- a blank, a tab, a carriage return, or a backslash that joins its line to the next -/
  | blank
  | lineFeed
  /-- from a hash sign to the end of its line -/
  | comment
  | token (kind : Token.Kind)
  deriving DecidableEq, Repr

structure Piece where
  sort : Piece.Sort
  text : Text
  deriving DecidableEq, Repr

namespace Piece

/-- the piece at the front of the text `c :: rest` -/
def read (c : Char) (rest : Text) : Except (ReadCause × Nat) Piece :=
  if c = ' ' ∨ c = '\t' ∨ c = '\r' then .ok ⟨.blank, [c]⟩
  else if c = '\n' then .ok ⟨.lineFeed, [c]⟩
  else if c = '\\' ∧ rest.head? = some '\n' then .ok ⟨.blank, ['\\', '\n']⟩
  else if c = '#' then .ok ⟨.comment, c :: rest.takeWhile (· != '\n')⟩
  else (Lexeme.read c rest).map (fun l => ⟨.token l.kind, l.text⟩)

/-- the pieces of a text that stands at `offset` -/
def readAll (offset : Nat) (cs : Text) : Except ReadError (List Piece) :=
  match cs with
  | [] => .ok []
  | c :: rest =>
    match read c rest with
    | .error (cause, distance) => .error ⟨cause, offset + distance⟩
    | .ok piece =>
      (readAll (offset + piece.text.size) (rest.drop (piece.text.length - 1))).map (piece :: ·)
termination_by cs.length
decreasing_by
  simp only [List.length_drop, List.length_cons]
  omega

end Piece

namespace TokenStream

/-- The stream of the pieces from `offset` on.  The flags tell what stands between the last token
and the first piece. -/
def place (offset : Nat) (space newline : Bool) : List Piece → TokenStream
  | [] => ⟨[], ⟨.eof, [], ⟨offset, offset⟩, space, newline⟩, []⟩
  | piece :: pieces =>
    let span : Span := ⟨offset, offset + piece.text.size⟩
    match piece.sort with
    | .blank => place span.stop true newline pieces
    | .lineFeed => place span.stop true true pieces
    | .comment =>
      let rest := place span.stop true newline pieces
      { rest with comments := span :: rest.comments }
    | .token kind =>
      let rest := place span.stop false false pieces
      { rest with tokens := ⟨kind, piece.text, span, space, newline⟩ :: rest.tokens }

/-- The tokens and comments of a text.  The first token counts as one that follows a line feed. -/
def read (t : Text) : Except ReadError TokenStream :=
  (Piece.readAll 0 t).map (place 0 true true)

end TokenStream

end Collate
