import Collate.Json.Double
import Collate.Sorting

/-!
# Data values

The values of the data format that settings are read from and reports are written in, and their
compact text.

* `Json`               null, truth values, numbers, texts, lists and objects;
* `Json.render`        the compact text, fields in the order in which they are held;
* `Json.escape`        a text between quotes: only quotes, backslashes and control characters are
                       escaped;
* `Json.field?`        the value of a field of an object.
-/

namespace Collate

/-- a number: an integer of 64 bits with or without a sign, or a magnitude with a sign -/
inductive Json.Number where
  | integer (value : Int)
  | real (negative : Bool) (magnitude : Double)
  deriving DecidableEq, Repr

inductive Json where
  | null
  | bool (value : Bool)
  | number (value : Json.Number)
  | str (value : String)
  | arr (items : List Json)
  | obj (fields : List (String × Json))

namespace Json

/-! ## access -/

def fields? : Json → Option (List (String × Json))
  | obj fields => some fields
  | _ => none

def items? : Json → Option (List Json)
  | arr items => some items
  | _ => none

def str? : Json → Option String
  | str value => some value
  | _ => none

def bool? : Json → Option Bool
  | bool value => some value
  | _ => none

/-- a number without sign and fraction -/
def nat? : Json → Option Nat
  | number (.integer (.ofNat n)) => some n
  | _ => none

def field? (value : Json) (name : String) : Option Json :=
  value.fields?.bind (·.lookup name)

def ofNat (n : Nat) : Json :=
  number (.integer n)

def ofStrings (texts : List String) : Json :=
  arr (texts.map str)

/-- The fields of an object as it is read: in the order of their names, and of two fields with one
name the later one. -/
def insertField (name : String) (value : Json) : List (String × Json) → List (String × Json)
  | [] => [(name, value)]
  | (other, held) :: rest =>
    if name < other then (name, value) :: (other, held) :: rest
    else if name = other then (name, value) :: rest
    else (other, held) :: insertField name value rest

/-- an object of the fields in the order in which they were read -/
def ofFields (fields : List (String × Json)) : Json :=
  obj (fields.foldl (fun held field => insertField field.1 field.2 held) [])

/-! ## text -/

def hexDigit (n : Nat) : Char :=
  (Nat.toDigits 16 (n % 16)).headD '0'

def escapeChar (c : Char) : List Char :=
  if c = '"' then ['\\', '"']
  else if c = '\\' then ['\\', '\\']
  else if c = '\x08' then ['\\', 'b']
  else if c = '\x0c' then ['\\', 'f']
  else if c = '\n' then ['\\', 'n']
  else if c = '\r' then ['\\', 'r']
  else if c = '\t' then ['\\', 't']
  else if c.toNat < 0x20 then ['\\', 'u', '0', '0', hexDigit (c.toNat / 16), hexDigit c.toNat]
  else [c]

def escape (s : String) : String :=
  "\"" ++ String.ofList (s.toList.flatMap escapeChar) ++ "\""

def Number.render : Number → String
  | .integer value => toString value
  | .real negative magnitude => (if negative then "-" else "") ++ magnitude.render

def commaSeparated : List String → String
  | [] => ""
  | [text] => text
  | text :: texts => text ++ "," ++ commaSeparated texts

mutual

/-- the compact text of a value -/
def render : Json → String
  | null => "null"
  | bool true => "true"
  | bool false => "false"
  | number value => value.render
  | str value => escape value
  | arr items => "[" ++ commaSeparated (renderItems items) ++ "]"
  | obj fields => "\x7b" ++ commaSeparated (renderFields fields) ++ "\x7d"

def renderItems : List Json → List String
  | [] => []
  | item :: items => render item :: renderItems items

def renderFields : List (String × Json) → List String
  | [] => []
  | (name, value) :: fields => (escape name ++ ":" ++ render value) :: renderFields fields

end

end Json

end Collate
