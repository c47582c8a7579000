import RecordCache.Binary64
import RecordCache.Text.Decimal

/-!
# Shortest decimal text of a number

A finite number is written with the fewest decimal digits that read back as it, and with the
nearest to it among those.

* `Binary64.Interval` is the set of reals that round to a number, kept as a fraction with a common
  denominator;
* `Binary64.shortest` finds the digits: for one digit, two digits and so on it tests the two
  points of the decimal grid next to the number;
* `Layout` says how digits are laid out as text, and `Binary64.text` writes a number.
-/

namespace RecordCache
namespace Binary64

/-- The reals that round to a positive number, all over one denominator. -/
structure Interval where
  low : Nat
  value : Nat
  high : Nat
  denominator : Nat
  closed : Bool

/-- The interval of the reals that round to the magnitude of a finite number. -/
def interval (x : Binary64) : Interval :=
  let m := x.significand
  let up := (x.exponent - 2).toNat
  let down := (2 - x.exponent).toNat
  let below := if x.isLowerEdge then 1 else 2
  { low := (4 * m - below) * Nat.pow 2 up
    value := 4 * m * Nat.pow 2 up
    high := (4 * m + 2) * Nat.pow 2 up
    denominator := Nat.pow 2 down
    closed := m % 2 = 0 }

namespace Interval

/-- Whether the fraction `p / q` lies in the interval. -/
def contains (i : Interval) (p q : Nat) : Bool :=
  if i.closed then i.low * q ≤ p * i.denominator && p * i.denominator ≤ i.high * q
  else i.low * q < p * i.denominator && p * i.denominator < i.high * q

/-- The distance between the fraction `p / q` and the value, over a common denominator. -/
def distance (i : Interval) (p q : Nat) : Nat :=
  (p * i.denominator - i.value * q) + (i.value * q - p * i.denominator)

/-- The point `n` of the grid with step 10 ^ `e` as a fraction. -/
def gridPoint (n : Nat) (e : Int) : Nat × Nat :=
  (n * Nat.pow 10 e.toNat, Nat.pow 10 (-e).toNat)

/-- The number of the grid point at or below the value. -/
def floorOnGrid (i : Interval) (e : Int) : Nat :=
  i.value * Nat.pow 10 (-e).toNat / (i.denominator * Nat.pow 10 e.toNat)

/-- The neighbour of the value on a grid that reads back as it, the nearer of two, and of two
equally near ones the even one. -/
def gridHit? (i : Interval) (e : Int) : Option Nat :=
  let n := i.floorOnGrid e
  let below := gridPoint n e
  let above := gridPoint (n + 1) e
  match 0 < n && i.contains below.1 below.2, i.contains above.1 above.2 with
  | false, false => none
  | true, false => some n
  | false, true => some (n + 1)
  | true, true =>
    let nearBelow := i.distance below.1 below.2
    let nearAbove := i.distance above.1 above.2
    if nearBelow < nearAbove then some n
    else if nearAbove < nearBelow then some (n + 1)
    else if n % 2 = 0 then some n else some (n + 1)

/-- The first hit on the grids from 10 ^ `e` on, each ten times finer than the one before. -/
def firstHit (i : Interval) : Nat → Int → Nat × Int
  | 0, e => (i.floorOnGrid e, e)
  | steps + 1, e =>
    match i.gridHit? e with
    | some n => (n, e)
    | none => firstHit i steps (e - 1)

/-- The exponent of the first decimal digit of the value, found downwards from `e`. -/
def leadingExponent (i : Interval) : Nat → Int → Int
  | 0, e => e
  | steps + 1, e => if 0 < i.floorOnGrid e then e else leadingExponent i steps (e - 1)

end Interval

/-- Drops zeros at the end of the digits; the exponent counts what was dropped. -/
def dropZeros : Nat → Nat → Int → Nat × Int
  | 0, n, e => (n, e)
  | steps + 1, n, e => if n % 10 = 0 && 0 < n then dropZeros steps (n / 10) (e + 1) else (n, e)

/-- The shortest significand and exponent of ten that read back as a finite nonzero number. -/
def shortest (x : Binary64) : Nat × Int :=
  let i := x.interval
  let hit := i.firstHit 17 (i.leadingExponent 640 309)
  dropZeros 18 hit.1 hit.2

/-- How decimal digits become text. -/
structure Layout where
  /-- The smallest exponent of the first digit that is written without an exponent. -/
  minPositional : Int
  /-- The largest exponent of the first digit that is written without an exponent. -/
  maxPositional : Int
  /-- Written after a whole number. -/
  wholeSuffix : List Char
  /-- Written between the digits and an exponent. -/
  mark : List Char
  /-- Written in front of an exponent that is not negative. -/
  plus : List Char

/-- Zeros. -/
def zeros (n : Nat) : List Char := List.replicate n '0'

/-- Lays out the digits of a significand times a power of ten. -/
def Layout.write (layout : Layout) (n : Nat) (e : Int) : List Char :=
  let digits := Text.decimal n
  let first : Int := digits.length - 1 + e
  if layout.minPositional ≤ first ∧ first ≤ layout.maxPositional then
    if 0 ≤ e then digits ++ zeros e.toNat ++ layout.wholeSuffix
    else if 0 ≤ first then
      digits.take (first.toNat + 1) ++ '.' :: digits.drop (first.toNat + 1)
    else '0' :: '.' :: zeros (-first - 1).toNat ++ digits
  else
    let rest := digits.drop 1
    digits.take 1 ++ (if rest.isEmpty then [] else '.' :: rest) ++ layout.mark ++
      (if 0 ≤ first then layout.plus else []) ++ Text.decimalInt first

/-- The text of a finite number. -/
def Layout.text (layout : Layout) (x : Binary64) : List Char :=
  let sign := if x.isNegative then ['-'] else []
  if x.isZero then sign ++ '0' :: layout.wholeSuffix
  else sign ++ layout.write x.shortest.1 x.shortest.2

end Binary64
end RecordCache
