import Collate.Text.Basic

/-!
# Tokens

The words and marks that source text is made of.

* `Keyword`            the reserved words, with `Keyword.spelling` and `Keyword.ofText?`;
* `Token.Kind`         what a token is, with the text it carries;
* `Token`              a kind with its place, its spelling and what stands before it;
* `TokenStream`        the tokens of a text, the mark of its end, and its comments.
-/

namespace Collate

inductive Keyword where
  | and_ | class_ | def_ | do_ | else_ | elsif_ | end_ | false_ | if_ | module_ | nil_ | not_ | or_
  | return_ | self_ | then_ | true_ | unless_ | until_ | while_ | yield_
  deriving DecidableEq, Repr

namespace Keyword

def all : List Keyword :=
  [and_, class_, def_, do_, else_, elsif_, end_, false_, if_, module_, nil_, not_, or_, return_,
    self_, then_, true_, unless_, until_, while_, yield_]

def spelling : Keyword → String
  | and_ => "and"
  | class_ => "class"
  | def_ => "def"
  | do_ => "do"
  | else_ => "else"
  | elsif_ => "elsif"
  | end_ => "end"
  | false_ => "false"
  | if_ => "if"
  | module_ => "module"
  | nil_ => "nil"
  | not_ => "not"
  | or_ => "or"
  | return_ => "return"
  | self_ => "self"
  | then_ => "then"
  | true_ => "true"
  | unless_ => "unless"
  | until_ => "until"
  | while_ => "while"
  | yield_ => "yield"

def text (k : Keyword) : Text :=
  k.spelling.toList

def ofText? (t : Text) : Option Keyword :=
  all.find? (fun k => k.text == t)

end Keyword

inductive Token.Kind where
  /-- a name that starts with a small letter, an underscore or a character past ASCII -/
  | ident (name : Text)
  /-- a name that starts with a capital letter -/
  | const (name : Text)
  /-- a name after at signs, which belong to it -/
  | ivar (name : Text)
  /-- a name and a colon, as in a keyword argument -/
  | label (name : Text)
  /-- a colon and a name, or a colon and a quoted text -/
  | symbol (name : Text)
  /-- a quoted text, as it stands between the quotes -/
  | str (content : Text)
  | number (digits : Text)
  | keyword (word : Keyword)
  | leftParen
  | rightParen
  | leftBracket
  | rightBracket
  | leftBrace
  | rightBrace
  | comma
  | semicolon
  | dot
  /-- `&.` -/
  | safeDot
  /-- `::` -/
  | scope
  | pipe
  | star
  | doubleStar
  | ampersand
  /-- `=` -/
  | assign
  /-- `+=` and its like -/
  | opAssign (spelling : Text)
  /-- `=>` -/
  | arrow
  /-- every other operator -/
  | op (spelling : Text)
  | eof
  deriving DecidableEq, Repr

structure Token where
  kind : Token.Kind
  text : Text
  span : Span
  /-- something that is no token stands between this token and the one before it -/
  spaceBefore : Bool
  /-- a line feed that is not joined to the next line stands there -/
  newlineBefore : Bool
  deriving DecidableEq, Repr

/-- a token as error texts show it; the end of the text has no spelling -/
def Token.found (t : Token) : Option Text :=
  if t.kind = .eof then none else some t.text

/-- the tokens of a text, then its end -/
structure TokenStream where
  tokens : List Token
  /-- the token of kind `eof`, behind the last character -/
  eof : Token
  comments : List Span
  deriving DecidableEq, Repr

end Collate
