import RecordCache.Binary64
import RecordCache.SortedMap
import RecordCache.Word

/-!
# JSON values

The plain data that metadata and arguments carry. A number is an integer or a floating-point
number, and the two never compare equal; integers are those of 64 bits with or without a sign.

* `Json.Integer`, `Json.Number`, `Json`;
* `Json.equals`: equality in which floating-point numbers compare by the standard;
* `Json.canonical`: members in ascending order of name at every depth, the last of two members of
  one name kept;
* `Json.int64?`: the value as a signed integer of 64 bits.
-/

namespace RecordCache
namespace Json

/-- The integers of 64 bits with or without a sign. -/
structure Integer where
  toInt : Int
  inRange : -(Word.count63 : Int) ≤ toInt ∧ toInt < Word.count64
  deriving DecidableEq

instance : Inhabited Integer := ⟨⟨0, by decide⟩⟩

/-- The integer, if it is in range. -/
def Integer.ofInt? (n : Int) : Option Integer :=
  if h : -(Word.count63 : Int) ≤ n ∧ n < Word.count64 then some ⟨n, h⟩ else none

/-- A signed integer of 64 bits. -/
def Integer.ofInt64 (n : Int64) : Integer :=
  ⟨n.toInt, n.le_toInt, Int.lt_trans n.toInt_lt (by decide)⟩

/-- The integer as a signed one of 64 bits, if it is one. -/
def Integer.int64? (n : Integer) : Option Int64 :=
  if n.toInt < Word.count63 then some (Int64.ofInt n.toInt) else none

/-- A number: an integer, or a floating-point number. -/
inductive Number
  | integer (n : Integer)
  | float (x : Binary64)
  deriving DecidableEq, Inhabited

/-- Integers compare as such, floating-point numbers by the standard, and an integer never equals
a floating-point number. -/
def Number.equals : Number → Number → Bool
  | integer m, integer n => m = n
  | float x, float y => x.equals y
  | _, _ => false

end Json

/-- A JSON value; an object is the list of its members. -/
inductive Json
  | null
  | bool (b : Bool)
  | number (n : Json.Number)
  | string (s : String)
  | array (items : List Json)
  | object (members : List (String × Json))
  deriving Inhabited

namespace Json

/-- A signed integer of 64 bits as a JSON value. -/
def ofInt64 (n : Int64) : Json := number (.integer (.ofInt64 n))

/-- The value as a signed integer of 64 bits, if it is one. -/
def int64? : Json → Option Int64
  | number (.integer n) => n.int64?
  | _ => none

/-- The text of a string. -/
def string? : Json → Option String
  | string s => some s
  | _ => none

mutual

/-- Equality, with the members of objects in the order listed. -/
def equals : Json → Json → Bool
  | null, null => true
  | bool a, bool b => a == b
  | number m, number n => m.equals n
  | string s, string t => s == t
  | array xs, array ys => equalItems xs ys
  | object ms, object ns => equalMembers ms ns
  | _, _ => false

/-- Equality item by item. -/
def equalItems : List Json → List Json → Bool
  | [], [] => true
  | x :: xs, y :: ys => x.equals y && equalItems xs ys
  | _, _ => false

/-- Equality member by member. -/
def equalMembers : List (String × Json) → List (String × Json) → Bool
  | [], [] => true
  | (j, x) :: ms, (k, y) :: ns => j == k && x.equals y && equalMembers ms ns
  | _, _ => false

end

mutual

/-- The value with the members of every object in ascending order of name, the last of two members
of one name kept. -/
def canonical : Json → Json
  | array items => array (canonicalItems items)
  | object members => object (Entries.ofList (canonicalMembers members))
  | value => value

/-- The canonical forms of the items. -/
def canonicalItems : List Json → List Json
  | [] => []
  | item :: items => item.canonical :: canonicalItems items

/-- The members with canonical values. -/
def canonicalMembers : List (String × Json) → List (String × Json)
  | [] => []
  | (name, value) :: members => (name, value.canonical) :: canonicalMembers members

end

end Json
end RecordCache
