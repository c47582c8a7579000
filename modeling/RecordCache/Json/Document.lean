import RecordCache.Json.Numeral
import RecordCache.Json.StringLiteral

/-!
# JSON documents

A document is what a JSON text says before a reader looks at it: members in the order written, with
repetitions. A literal that is well formed but denotes nothing, a number that is too large or a
string with half a surrogate pair, stands as `none`, so that a reader may still pass over it.

* `Document` is the tree;
* `Document.value`, `items`, `members` read a piece of a text and return the rest;
* `Document.parse?` reads a whole text.
-/

namespace RecordCache
namespace Json

/-- A JSON text as a tree. -/
inductive Document
  | null
  | bool (b : Bool)
  | number (n : Option Number)
  | string (s : Option String)
  | array (items : List Document)
  | object (members : List (Option String × Document))
  deriving Inhabited

namespace Document

/-- Whether the character separates tokens. -/
def isBlank (c : Char) : Bool := c = ' ' || c = '\n' || c = '\t' || c = '\r'

/-- The text without the blanks in front. -/
def skipBlanks (text : List Char) : List Char := text.dropWhile isBlank

/-- The string that a literal denotes, and the text behind it. -/
def stringBody (text : List Char) : Option (Option String × List Char) :=
  (StringLiteral.scan text).map fun read =>
    ((StringLiteral.decode read.1).map String.ofList, read.2)

mutual

/-- Reads one value; `fuel` bounds the number of nested readings. -/
def value (fuel : Nat) (text : List Char) : Option (Document × List Char) :=
  match fuel with
  | 0 => none
  | fuel + 1 =>
    match skipBlanks text with
    | 'n' :: 'u' :: 'l' :: 'l' :: rest => some (null, rest)
    | 't' :: 'r' :: 'u' :: 'e' :: rest => some (bool true, rest)
    | 'f' :: 'a' :: 'l' :: 's' :: 'e' :: rest => some (bool false, rest)
    | '"' :: rest => (stringBody rest).map fun read => (string read.1, read.2)
    | '[' :: rest =>
      match skipBlanks rest with
      | ']' :: rest => some (array [], rest)
      | rest => (items fuel rest).map fun read => (array read.1, read.2)
    | '\x7b' :: rest =>
      match skipBlanks rest with
      | '\x7d' :: rest => some (object [], rest)
      | rest => (members fuel rest).map fun read => (object read.1, read.2)
    | rest => (Numeral.scan rest).map fun read => (number read.1.number?, read.2)

/-- Reads one or more items between commas, and the closing bracket. -/
def items (fuel : Nat) (text : List Char) : Option (List Document × List Char) :=
  match fuel with
  | 0 => none
  | fuel + 1 => do
    let (item, text) ← value fuel text
    match skipBlanks text with
    | ']' :: rest => some ([item], rest)
    | ',' :: rest => (items fuel rest).map fun read => (item :: read.1, read.2)
    | _ => none

/-- Reads one or more members between commas, and the closing brace. -/
def members (fuel : Nat) (text : List Char) :
    Option (List (Option String × Document) × List Char) :=
  match fuel with
  | 0 => none
  | fuel + 1 =>
    match skipBlanks text with
    | '"' :: rest => do
      let (name, text) ← stringBody rest
      match skipBlanks text with
      | ':' :: rest =>
        let (content, text) ← value fuel rest
        match skipBlanks text with
        | '\x7d' :: rest => some ([(name, content)], rest)
        | ',' :: rest => (members fuel rest).map fun read => ((name, content) :: read.1, read.2)
        | _ => none
      | _ => none
    | _ => none

end

/-- Reads a whole text, which holds one value and blanks. Each reading of a value or of its items
consumes a character at least every second time, which bounds the fuel. -/
def parse? (text : String) : Option Document :=
  let chars := text.toList
  match value (2 * chars.length + 2) chars with
  | some (document, rest) => if (skipBlanks rest).isEmpty then some document else none
  | none => none

end Document

end Json
end RecordCache
