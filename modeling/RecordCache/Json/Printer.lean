import RecordCache.Binary64.Shortest
import RecordCache.Json

/-!
# Compact JSON text

A value is written without blanks, the members of an object in the order listed.

* `Json.quote` writes a string: only quotes, backslashes and characters below the space are
  escaped;
* `Json.numbers` is the layout of floating-point numbers, which always have a point or an
  exponent; a number that is not finite is written as null;
* `Json.text` writes a value.
-/

namespace RecordCache
namespace Json

/-- The spelling of one character of a string. -/
def escapeChar (c : Char) : List Char :=
  if c = '"' then ['\\', '"']
  else if c = '\\' then ['\\', '\\']
  else if c = '\x08' then ['\\', 'b']
  else if c = '\x0c' then ['\\', 'f']
  else if c = '\n' then ['\\', 'n']
  else if c = '\r' then ['\\', 'r']
  else if c = '\t' then ['\\', 't']
  else if c < ' ' then '\\' :: 'u' :: Text.hexFixed 4 c.toNat
  else [c]

/-- The literal of a string. -/
def quote (text : String) : List Char :=
  '"' :: text.toList.flatMap escapeChar ++ ['"']

/-- Floating-point numbers from 0.00001 to below 10 ^ 16 are written without an exponent. -/
def numbers : Binary64.Layout where
  minPositional := -5
  maxPositional := 15
  wholeSuffix := ['.', '0']
  mark := ['e']
  plus := ['+']

/-- The literal of a number. -/
def Number.text : Number → List Char
  | integer n => Text.decimalInt n.toInt
  | float x => if x.isFinite then numbers.text x else ['n', 'u', 'l', 'l']

mutual

/-- The compact text of a value. -/
def text : Json → List Char
  | null => ['n', 'u', 'l', 'l']
  | bool true => ['t', 'r', 'u', 'e']
  | bool false => ['f', 'a', 'l', 's', 'e']
  | number n => n.text
  | string s => quote s
  | array items => '[' :: textItems items ++ [']']
  | object members => '\x7b' :: textMembers members ++ ['\x7d']

/-- The texts of the items between commas. -/
def textItems : List Json → List Char
  | [] => []
  | [item] => item.text
  | item :: items => item.text ++ ',' :: textItems items

/-- The texts of the members between commas. -/
def textMembers : List (String × Json) → List Char
  | [] => []
  | [(name, value)] => quote name ++ ':' :: value.text
  | (name, value) :: members => quote name ++ ':' :: value.text ++ ',' :: textMembers members

end

/-- The compact text of a value as a string. -/
def print (value : Json) : String := String.ofList value.text

end Json
end RecordCache
