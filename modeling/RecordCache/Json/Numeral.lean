import RecordCache.Json
import RecordCache.Text.Decimal
import RecordCache.Word

/-!
# Number literals

A number literal is a sign, whole digits without a superfluous zero in front, and perhaps a
fraction and an exponent.

* `Numeral.scan` reads a literal at the front of a text;
* `Numeral.number?` is what it denotes: an integer when it is written as one that fits, else the
  floating-point number of its first digits, as many as fit 64 bits; none when that is too large.
-/

namespace RecordCache
namespace Json

/-- The parts of a number literal; digits are their values. -/
structure Numeral where
  negative : Bool
  whole : List Nat
  fraction : Option (List Nat)
  exponent : Option (Bool × List Nat)

namespace Numeral

/-- Reads the whole digits: a single zero, or digits that start with another one. -/
def scanWhole (text : List Char) : Option (List Nat × List Char) :=
  match Text.spanDigits text with
  | ([], _) => none
  | (0 :: _ :: _, _) => none
  | (digits, rest) => some (digits, rest)

/-- Reads a fraction, if there is a point. -/
def scanFraction : List Char → Option (Option (List Nat) × List Char)
  | '.' :: text =>
    match Text.spanDigits text with
    | ([], _) => none
    | (digits, rest) => some (some digits, rest)
  | text => some (none, text)

/-- Reads an exponent, if there is its mark; the flag is its minus sign. -/
def scanExponent : List Char → Option (Option (Bool × List Nat) × List Char)
  | c :: text =>
    if c = 'e' ∨ c = 'E' then
      let signed : Bool × List Char :=
        match text with
        | '+' :: rest => (false, rest)
        | '-' :: rest => (true, rest)
        | _ => (false, text)
      match Text.spanDigits signed.2 with
      | ([], _) => none
      | (digits, rest) => some (some (signed.1, digits), rest)
    else some (none, c :: text)
  | [] => some (none, [])

/-- Reads the literal at the front of a text. -/
def scan (text : List Char) : Option (Numeral × List Char) := do
  let signed : Bool × List Char :=
    match text with
    | '-' :: rest => (true, rest)
    | _ => (false, text)
  let (whole, text) ← scanWhole signed.2
  let (fraction, text) ← scanFraction text
  let (exponent, text) ← scanExponent text
  return (⟨signed.1, whole, fraction, exponent⟩, text)

/-- Appends digits to a significand as long as it stays below 2 ^ 64; also the digits left. -/
def extend (significand : Nat) : List Nat → Nat × List Nat
  | [] => (significand, [])
  | d :: digits =>
    if 10 * significand + d < Word.count64 then extend (10 * significand + d) digits
    else (significand, d :: digits)

/-- The exponent as an integer. -/
def exponentValue (numeral : Numeral) : Int :=
  match numeral.exponent with
  | none => 0
  | some (negative, digits) =>
    if negative then -(Text.ofDigits digits : Int) else Text.ofDigits digits

/-- The floating-point number that the literal denotes; none when it is too large. -/
def float? (numeral : Numeral) : Option Binary64 :=
  let (whole, dropped) := extend 0 numeral.whole
  let fraction := numeral.fraction.getD []
  let (significand, ignored) := extend whole fraction
  -- A whole digit that was dropped counts for a power of ten, a digit of the fraction against one.
  let scale : Int := dropped.length - (fraction.length - ignored.length : Nat)
  (Binary64.ofScaled? significand (scale + numeral.exponentValue)).map
    (Binary64.signed numeral.negative)

/-- The integer that the literal spells, if it is written as one other than minus zero and fits. -/
def integer? (numeral : Numeral) : Option Integer :=
  if numeral.fraction.isSome || numeral.exponent.isSome then none
  else
    let n := Text.ofDigits numeral.whole
    if numeral.negative then
      if n = 0 then none else Integer.ofInt? (-(n : Int))
    else Integer.ofInt? n

/-- The number that the literal denotes; none when it is too large. -/
def number? (numeral : Numeral) : Option Number :=
  match numeral.integer? with
  | some n => some (.integer n)
  | none => numeral.float?.map .float

end Numeral

end Json
end RecordCache
