import RecordCache.Text.Decimal

/-!
# String literals

Between its quotes a literal spells a sequence of 16-bit units or whole characters: a character
spells itself, and an escape its unit. Two units that form a surrogate pair are one character; a
surrogate without its partner spells no text.

* `StringLiteral.scan` reads the units of a literal up to its closing quote;
* `StringLiteral.decode` is the text that units spell.
-/

namespace RecordCache
namespace Json
namespace StringLiteral

/-- The character of a one-letter escape. -/
def escaped? (c : Char) : Option Char :=
  match c with
  | '"' => some '"'
  | '\\' => some '\\'
  | '/' => some '/'
  | 'b' => some '\x08'
  | 'f' => some '\x0c'
  | 'n' => some '\n'
  | 'r' => some '\r'
  | 't' => some '\t'
  | _ => none

/-- The number that four hexadecimal digits spell. -/
def hexUnit? (a b c d : Char) : Option Nat := do
  let a ← Text.hexValue? a
  let b ← Text.hexValue? b
  let c ← Text.hexValue? c
  let d ← Text.hexValue? d
  return ((a * 16 + b) * 16 + c) * 16 + d

/-- Puts a unit in front of what was read. -/
def consUnit (unit : Nat) (read : List Nat × List Char) : List Nat × List Char :=
  (unit :: read.1, read.2)

/-- Reads units up to the closing quote, after the opening one; also the text behind it. Characters
below the space must be escaped. -/
def scan : List Char → Option (List Nat × List Char)
  | [] => none
  | '"' :: rest => some ([], rest)
  | '\\' :: 'u' :: a :: b :: c :: d :: rest =>
    match hexUnit? a b c d with
    | some unit => (scan rest).map (consUnit unit)
    | none => none
  | '\\' :: c :: rest =>
    match escaped? c with
    | some e => (scan rest).map (consUnit e.toNat)
    | none => none
  | c :: rest => if c < ' ' ∨ c = '\\' then none else (scan rest).map (consUnit c.toNat)

/-- Whether the unit is the first of a surrogate pair. -/
def isHigh (unit : Nat) : Bool := 0xD800 ≤ unit && unit ≤ 0xDBFF

/-- Whether the unit is the second of a surrogate pair. -/
def isLow (unit : Nat) : Bool := 0xDC00 ≤ unit && unit ≤ 0xDFFF

/-- The character of a surrogate pair. -/
def paired (high low : Nat) : Char :=
  Char.ofNat (0x10000 + (high - 0xD800) * 0x400 + (low - 0xDC00))

/-- The text that units spell; none when a surrogate lacks its partner. -/
def decode : List Nat → Option (List Char)
  | [] => some []
  | [unit] => if isHigh unit || isLow unit then none else some [Char.ofNat unit]
  | unit :: next :: units =>
    if isHigh unit then
      if isLow next then (decode units).map (paired unit next :: ·) else none
    else if isLow unit then none
    else (decode (next :: units)).map (Char.ofNat unit :: ·)

end StringLiteral
end Json
end RecordCache
