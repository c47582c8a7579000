import RecordCache.Binary64
import RecordCache.Key
import RecordCache.SortedMap

/-!
# Field values

The value of a field of a record: plain data, a reference to another record, or an error that took
the place of a value.

* `FieldError`, `Value`;
* `Value.equals`: equality in which floating-point numbers compare by the standard;
* `Value.references`: the keys referred to at any depth, in the order they are met.
-/

namespace RecordCache

/-- An error cached in place of a value, with the path of the field in the response. -/
structure FieldError where
  message : String
  path : List String
  deriving DecidableEq, Inhabited, Repr

/-- The value of a field; an object is the list of its members in ascending order of name. -/
inductive Value
  | null
  | boolean (b : Bool)
  | int (n : Int64)
  | float (x : Binary64)
  | string (s : String)
  | reference (key : Key)
  | list (items : List Value)
  | object (members : List (String × Value))
  | error (e : FieldError)
  deriving Inhabited

namespace Value

/-- Whether the value is an error. -/
def isError : Value → Bool
  | error _ => true
  | _ => false

/-- The key that the value refers to. -/
def reference? : Value → Option Key
  | reference key => some key
  | _ => none

/-- The items of a list. -/
def list? : Value → Option (List Value)
  | list items => some items
  | _ => none

/-- The members of an object. -/
def object? : Value → Option (List (String × Value))
  | object members => some members
  | _ => none

/-- The text of a string. -/
def string? : Value → Option String
  | string s => some s
  | _ => none

mutual

/-- Equality by constructor, with the comparison of the standard for floating-point numbers. -/
def equals : Value → Value → Bool
  | null, null => true
  | boolean a, boolean b => a == b
  | int m, int n => m == n
  | float x, float y => x.equals y
  | string s, string t => s == t
  | reference j, reference k => j == k
  | list xs, list ys => equalItems xs ys
  | object ms, object ns => equalMembers ms ns
  | error d, error e => d == e
  | _, _ => false

/-- Equality item by item. -/
def equalItems : List Value → List Value → Bool
  | [], [] => true
  | x :: xs, y :: ys => x.equals y && equalItems xs ys
  | _, _ => false

/-- Equality member by member. -/
def equalMembers : List (String × Value) → List (String × Value) → Bool
  | [], [] => true
  | (j, x) :: ms, (k, y) :: ns => j == k && x.equals y && equalMembers ms ns
  | _, _ => false

end

mutual

/-- The keys referred to in the value. -/
def references : Value → List Key
  | reference key => [key]
  | list items => itemReferences items
  | object members => memberReferences members
  | _ => []

/-- The keys referred to in the items. -/
def itemReferences : List Value → List Key
  | [] => []
  | item :: items => item.references ++ itemReferences items

/-- The keys referred to in the members. -/
def memberReferences : List (String × Value) → List Key
  | [] => []
  | (_, value) :: members => value.references ++ memberReferences members

end

end Value
end RecordCache
