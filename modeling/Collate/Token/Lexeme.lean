import Collate.Token.Basic
import Collate.Token.Quoted

/-!
# The token at the front of a text

Which token a text starts with, and the characters it takes.  Every function here is given a text
that starts with the character its name stands for, and answers with the kind of the token and
the characters it is written with, which are the first ones of the text.

* `Lexeme.ofWord`      names, reserved words and labels;
* `Lexeme.ofNumber`    digits, with at most one point;
* `Lexeme.ofVariable`  names after at signs;
* `Lexeme.ofQuoted`    quoted texts;
* `Lexeme.ofColon`     symbols and the scope operator;
* `Lexeme.ofOperator`  operators and brackets, the longest spelling first;
* `Lexeme.read`        all of them, chosen by the first character.

A fault carries the number of bytes from the front of the text to the place it is reported at.
-/

namespace Collate

/-- the token at the front of a text -/
structure Lexeme where
  kind : Token.Kind
  text : Text
  deriving DecidableEq, Repr

/-- the character may stand inside a name: an ASCII letter, digit or underscore, or anything past
ASCII -/
def isNameChar (c : Char) : Bool :=
  c.isAlphanum || c == '_' || decide (0x80 ≤ c.toNat)

def isNumberChar (c : Char) : Bool :=
  c.isDigit || c == '_'

/-- The operators and brackets.  Longer spellings stand first, so that the first one that fits is
the longest one that fits. -/
def operatorSpellings : List Text :=
  ["**=", "&&=", "||=", "<<=", ">>=", "<=>", "===", "...", "**", "&&", "||", "&.", "==", "!=",
    "=~", "!~", "<=", ">=", "<<", ">>", "=>", "+=", "-=", "*=", "/=", "%=", "|=", "&=", "^=", "->",
    "..", "(", ")", "[", "]", "\x7b", "\x7d", ",", ";", ".", "|", "*", "&", "=", "!", "<", ">", "+",
    "-", "/", "%", "^", "~"].map String.toList

/-- the operators that end in an equals sign and do not assign -/
def comparisonSpellings : List Text :=
  ["==", "!=", "<=", ">=", "==="].map String.toList

def Token.Kind.ofSpelling (spelling : Text) : Token.Kind :=
  match spelling with
  | ['('] => .leftParen
  | [')'] => .rightParen
  | ['['] => .leftBracket
  | [']'] => .rightBracket
  | ['{'] => .leftBrace
  | ['}'] => .rightBrace
  | [','] => .comma
  | [';'] => .semicolon
  | ['.'] => .dot
  | ['&', '.'] => .safeDot
  | ['|'] => .pipe
  | ['*'] => .star
  | ['*', '*'] => .doubleStar
  | ['&'] => .ampersand
  | ['='] => .assign
  | ['=', '>'] => .arrow
  | _ =>
    if comparisonSpellings.contains spelling then .op spelling
    else if 1 < spelling.length ∧ spelling.getLast? = some '=' then .opAssign spelling
    else .op spelling

/-- the kind of a name that is no label -/
def Token.Kind.ofName (name : Text) : Token.Kind :=
  if name.head?.any Char.isUpper then .const name
  else
    match Keyword.ofText? name with
    | some word => .keyword word
    | none => .ident name

namespace Lexeme

/-- a question or exclamation mark at the front of a text -/
def mark : Text → Text
  | '?' :: _ => ['?']
  | '!' :: _ => ['!']
  | _ => []

/-- the mark that belongs to a name: not one that begins an operator with an equals sign -/
def nameMark (rest : Text) : Text :=
  if (rest.drop 1).head? = some '=' then [] else mark rest

def ofWord (cs : Text) : Lexeme :=
  let stem := cs.takeWhile isNameChar
  let name := stem ++ nameMark (cs.drop stem.length)
  match cs.drop name.length with
  | ':' :: rest =>
    -- two colons are the scope operator, and the name in front of them is no label
    if rest.head? = some ':' then ⟨.ofName name, name⟩ else ⟨.label name, name ++ [':']⟩
  | _ => ⟨.ofName name, name⟩

/-- a number: digits, then perhaps a point and digits -/
def ofNumber (cs : Text) : Lexeme :=
  let whole := cs.takeWhile isNumberChar
  match cs.drop whole.length with
  | '.' :: rest =>
    if rest.head?.any Char.isDigit then
      let digits := whole ++ '.' :: rest.takeWhile isNumberChar
      ⟨.number digits, digits⟩
    else
      ⟨.number whole, whole⟩
  | _ => ⟨.number whole, whole⟩

def ofVariable (cs : Text) : Except (ReadCause × Nat) Lexeme :=
  let signs := cs.takeWhile (· == '@')
  let stem := (cs.drop signs.length).takeWhile isNameChar
  if stem.isEmpty then .error (.namelessVariable, 0)
  else .ok ⟨.ivar (signs ++ stem), signs ++ stem⟩

/-- the content behind a quote, and the characters from quote to quote -/
def quoted (quote : Char) (rest : Text) : Except ReadCause (Text × Text) :=
  (quotedContent quote .plain rest).map (fun content => (content, quote :: content ++ [quote]))

def ofQuoted (quote : Char) (rest : Text) : Except (ReadCause × Nat) Lexeme :=
  match quoted quote rest with
  | .ok (content, written) => .ok ⟨.str content, written⟩
  | .error cause => .error (cause, 0)

/-- what follows a colon: a colon, a quoted text or a name -/
def ofColon (rest : Text) : Except (ReadCause × Nat) Lexeme :=
  match rest with
  | [] => .error (.strayColon, 0)
  | c :: after =>
    if c = ':' then
      .ok ⟨.scope, [':', ':']⟩
    else if c = '"' ∨ c = '\'' then
      match quoted c after with
      | .ok (content, written) => .ok ⟨.symbol content, ':' :: written⟩
      | .error cause => .error (cause, 1)
    else if isNameChar c && !c.isDigit then
      let stem := rest.takeWhile isNameChar
      let name := stem ++ mark (rest.drop stem.length)
      .ok ⟨.symbol name, ':' :: name⟩
    else
      .error (.strayColon, 0)

def ofOperator (c : Char) (cs : Text) : Except (ReadCause × Nat) Lexeme :=
  match operatorSpellings.find? (fun spelling => spelling.isPrefixOf cs) with
  | some spelling => .ok ⟨.ofSpelling spelling, spelling⟩
  | none => .error (.strayCharacter c, 0)

/-- the token at the front of the text `c :: rest` -/
def read (c : Char) (rest : Text) : Except (ReadCause × Nat) Lexeme :=
  if c.isDigit then .ok (ofNumber (c :: rest))
  else if isNameChar c then .ok (ofWord (c :: rest))
  else if c = '@' then ofVariable (c :: rest)
  else if c = '\'' ∨ c = '"' then ofQuoted c rest
  else if c = ':' then ofColon rest
  else if c = '?' then .error (.ternary, 0)
  else ofOperator c (c :: rest)

end Lexeme

end Collate
