import Collate.Json.Basic

/-!
# Reading data values

The strict grammar of the data format: no marks in front, nothing behind, no raw control
characters, no halves of surrogate pairs, no number that is too large, and at most 127 lists and
objects inside each other.

* `Json.readNumber`   a number; digits that do not fit into 64 bits are dropped, and a fraction or
                      exponent is put in by one multiplication or division in double precision;
* `Json.readString`   a text behind its opening quote;
* `Json.readValue`    a value, with lists and objects down to a depth;
* `Json.read`         a whole text.

A reader answers with the value and the characters behind it.
-/

namespace Collate

namespace Json

/-- the characters behind the white space at the front -/
def skipSpace (cs : List Char) : List Char :=
  cs.dropWhile (fun c => c == ' ' || c == '\n' || c == '\t' || c == '\r')

/-! ## numbers -/

/-- the largest number of 64 bits -/
def largestWord : Nat := 18446744073709551615

def largestNegative : Nat := 9223372036854775808

/-- the largest exponent that is counted -/
def largestExponent : Nat := 2147483647

def digitValue (c : Char) : Nat :=
  c.toNat - '0'.toNat

/-- digits appended to a number up to the first that makes it too large, and the digits from there
on -/
def accumulate (limit : Nat) (value : Nat) : List Char → Nat × List Char
  | [] => (value, [])
  | c :: cs =>
    if limit < value * 10 + digitValue c then (value, c :: cs)
    else accumulate limit (value * 10 + digitValue c) cs

/-- the magnitude divided by a power of ten, in steps of at most `10 ^ 308` -/
def scaleDown (x : Double) (power : Nat) : Option Double := do
  if power ≤ 308 then
    x.div? (← Double.ofRatio? (tenTo power) 1)
  else if x.isZero then
    return x
  else
    scaleDown (← x.div? (← Double.ofRatio? (tenTo 308) 1)) (power - 308)
termination_by power

def scale (significand : Nat) (exponent : Int) : Option Double := do
  let x ← Double.ofRatio? significand 1
  match exponent with
  | .ofNat power =>
    if power ≤ 308 then
      x.mul? (← Double.ofRatio? (tenTo power) 1)
    else if x.isZero then
      return x
    else
      none
  | .negSucc power => scaleDown x (power + 1)

/-- the sign and the digits of an exponent, behind its mark -/
def readExponent (cs : List Char) : Option (Bool × List Char × List Char) :=
  let (negative, rest) :=
    match cs with
    | '+' :: rest => (false, rest)
    | '-' :: rest => (true, rest)
    | rest => (false, rest)
  let digits := rest.takeWhile Char.isDigit
  if digits.isEmpty then none else some (negative, digits, rest.dropWhile Char.isDigit)

/-- a magnitude, from its significand and the exponent that may follow -/
def finishReal (significand : Nat) (exponent : Int) (cs : List Char) :
    Option (Double × List Char) := do
  match cs with
  | c :: rest =>
    if c = 'e' ∨ c = 'E' then
      let (negative, digits, rest) ← readExponent rest
      let (value, tooLarge) := accumulate largestExponent 0 digits
      if tooLarge.isEmpty then
        let total := if negative then exponent - value else exponent + value
        return (← scale significand total, rest)
      else if significand = 0 ∨ negative then
        return (.zero, rest)
      else
        none
    else
      return (← scale significand exponent, cs)
  | [] => return (← scale significand exponent, [])

/-- a magnitude, from its whole part and the fraction that may follow -/
def readReal (significand : Nat) (exponent : Int) (cs : List Char) :
    Option (Double × List Char) :=
  match cs with
  | '.' :: rest =>
    let digits := rest.takeWhile Char.isDigit
    if digits.isEmpty then none
    else
      let (value, dropped) := accumulate largestWord significand digits
      finishReal value (exponent - (digits.length - dropped.length)) (rest.dropWhile Char.isDigit)
  | _ => finishReal significand exponent cs

/-- the number is written with a fraction or an exponent -/
def isReal : List Char → Bool
  | c :: _ => c == '.' || c == 'e' || c == 'E'
  | [] => false

/-- an integer of 64 bits; nothing else has a sign in front of a zero -/
def integer (negative : Bool) (value : Nat) : Option Number :=
  if !negative then some (.integer value)
  else if value = 0 ∨ largestNegative < value then (Double.ofRatio? value 1).map (.real true)
  else some (.integer (-value))

def readMagnitude (negative : Bool) (cs : List Char) : Option (Number × List Char) := do
  let digits := cs.takeWhile Char.isDigit
  let rest := cs.dropWhile Char.isDigit
  if digits.isEmpty ∨ (digits.head? = some '0' ∧ 1 < digits.length) then
    none
  else
    let (significand, dropped) := accumulate largestWord 0 digits
    if dropped.isEmpty && !isReal rest then
      return (← integer negative significand, rest)
    else
      let (magnitude, rest) ← readReal significand dropped.length rest
      return (.real negative magnitude, rest)

def readNumber : List Char → Option (Number × List Char)
  | '-' :: rest => readMagnitude true rest
  | cs => readMagnitude false cs

/-! ## texts -/

def hexValue? (c : Char) : Option Nat :=
  if c.isDigit then some (c.toNat - '0'.toNat)
  else if 'a' ≤ c ∧ c ≤ 'f' then some (c.toNat - 'a'.toNat + 10)
  else if 'A' ≤ c ∧ c ≤ 'F' then some (c.toNat - 'A'.toNat + 10)
  else none

def hexUnit? (a b c d : Char) : Option Nat := do
  return (((← hexValue? a) * 16 + (← hexValue? b)) * 16 + (← hexValue? c)) * 16 + (← hexValue? d)

def simpleEscape? (c : Char) : Option Char :=
  match c with
  | '"' => some '"'
  | '\\' => some '\\'
  | '/' => some '/'
  | 'b' => some '\x08'
  | 'f' => some '\x0c'
  | 'n' => some '\n'
  | 'r' => some '\r'
  | 't' => some '\t'
  | _ => none

/-- the unit is the first half of a pair -/
def isHighHalf (unit : Nat) : Bool :=
  decide (0xD800 ≤ unit) && decide (unit < 0xDC00)

/-- the unit is the second half of a pair -/
def isLowHalf (unit : Nat) : Bool :=
  decide (0xDC00 ≤ unit) && decide (unit < 0xE000)

def joinHalves (high low : Nat) : Char :=
  Char.ofNat (0x10000 + (high - 0xD800) * 0x400 + (low - 0xDC00))

/-- a text behind its opening quote, and the characters behind its closing quote -/
def readString : List Char → Option (List Char × List Char)
  | [] => none
  | '"' :: rest => some ([], rest)
  | '\\' :: 'u' :: a :: b :: c :: d :: rest => do
    let unit ← hexUnit? a b c d
    if isHighHalf unit then
      match rest with
      | '\\' :: 'u' :: a :: b :: c :: d :: rest =>
        let low ← hexUnit? a b c d
        if isLowHalf low then
          let (text, rest) ← readString rest
          return (joinHalves unit low :: text, rest)
        else
          none
      | _ => none
    else if isLowHalf unit then
      none
    else
      let (text, rest) ← readString rest
      return (Char.ofNat unit :: text, rest)
  | '\\' :: c :: rest => do
    let escaped ← simpleEscape? c
    let (text, rest) ← readString rest
    return (escaped :: text, rest)
  | c :: rest => do
    if c = '\\' ∨ c.toNat < 0x20 then
      none
    else
      let (text, rest) ← readString rest
      return (c :: text, rest)

/-! ## values -/

/-- items with commas between them, behind the opening mark and up to the closing one -/
def readItems {α : Type} (item : List Char → Option (α × List Char)) (closing : Char) :
    Nat → List Char → Option (List α × List Char)
  | 0, _ => none
  | fuel + 1, cs => do
    let (first, rest) ← item (skipSpace cs)
    match skipSpace rest with
    | c :: rest =>
      if c = closing then
        return ([first], rest)
      else if c = ',' then
        let (items, rest) ← readItems item closing fuel rest
        return (first :: items, rest)
      else
        none
    | [] => none

def readList {α : Type} (item : List Char → Option (α × List Char)) (closing : Char)
    (cs : List Char) : Option (List α × List Char) :=
  match skipSpace cs with
  | c :: rest =>
    if c = closing then some ([], rest) else readItems item closing cs.length (c :: rest)
  | [] => none

def readField (value : List Char → Option (Json × List Char)) (cs : List Char) :
    Option ((String × Json) × List Char) := do
  match cs with
  | '"' :: rest =>
    let (name, rest) ← readString rest
    match skipSpace rest with
    | ':' :: rest =>
      let (held, rest) ← value (skipSpace rest)
      return ((String.ofList name, held), rest)
    | _ => none
  | _ => none

/-- a value, with lists and objects down to a depth -/
def readValue : Nat → List Char → Option (Json × List Char)
  | _, 'n' :: 'u' :: 'l' :: 'l' :: rest => some (.null, rest)
  | _, 't' :: 'r' :: 'u' :: 'e' :: rest => some (.bool true, rest)
  | _, 'f' :: 'a' :: 'l' :: 's' :: 'e' :: rest => some (.bool false, rest)
  | _, '"' :: rest => (readString rest).map (fun (text, rest) => (.str (String.ofList text), rest))
  | depth + 1, '[' :: rest =>
    (readList (readValue depth) ']' rest).map (fun (items, rest) => (.arr items, rest))
  | depth + 1, '{' :: rest =>
    (readList (readField (readValue depth)) '}' rest).map
      (fun (fields, rest) => (ofFields fields, rest))
  | _, cs => (readNumber cs).map (fun (value, rest) => (.number value, rest))

/-- how many lists and objects may stand inside each other -/
def depthLimit : Nat := 127

def read (cs : List Char) : Option Json :=
  match readValue depthLimit (skipSpace cs) with
  | some (value, rest) => if (skipSpace rest).isEmpty then some value else none
  | none => none

end Json

end Collate
