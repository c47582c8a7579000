import RecordCache.Json.Document

/-!
# Reading documents

A reader takes from a document what it knows and passes over the rest. Arrays and objects that it
takes from may nest up to a given depth.

* `Document.fields?` picks the members of a structure by name, or by position from an array;
* `Document.list?`, `dictionary?` read lists and maps;
* `Json.ofDocument?` reads any value, its members put in order and the last of one name kept;
* `depthLimit` is the depth allowed in a text.
-/

namespace RecordCache
namespace Json

/-- Arrays and objects in a text may nest this deep. -/
def depthLimit : Nat := 127

namespace Document

/-- The value of a string. -/
def string? : Document → Option String
  | string s => s
  | _ => none

/-- The value of a boolean. -/
def bool? : Document → Option Bool
  | bool b => some b
  | _ => none

/-- The value of a number. -/
def number? : Document → Option Number
  | number n => n
  | _ => none

/-- The value of an integer. -/
def integer? (document : Document) : Option Integer :=
  match document.number? with
  | some (.integer n) => some n
  | _ => none

/-- The value of an integer that is not negative. -/
def nat? (document : Document) : Option Nat :=
  match document.integer? with
  | some n => if 0 ≤ n.toInt then some n.toInt.toNat else none
  | none => none

/-- The member of the given name; none when there are several. -/
def uniqueMember? (members : List (String × Document)) (name : String) :
    Option (Option Document) :=
  match members.filter fun member => member.1 = name with
  | [] => some none
  | [member] => some (some member.2)
  | _ => none

/-- The members of an object with their names. -/
def namedMembers? (members : List (Option String × Document)) :
    Option (List (String × Document)) :=
  members.mapM fun member => member.1.map fun name => (name, member.2)

/-- The members of a structure in the order of `names`: those of an object by name, each at most
once, or those of an array by position. Members of other names are passed over. -/
def fields? (names : List String) : Document → Option (List (Option Document))
  | object members => do
    let members ← namedMembers? members
    names.mapM (uniqueMember? members)
  | array items =>
    if items.length ≤ names.length then
      some (items.map some ++ List.replicate (names.length - items.length) none)
    else none
  | _ => none

/-- Reads a list. -/
def list? {α : Type} (read : Document → Option α) : Document → Option (List α)
  | array items => items.mapM read
  | _ => none

/-- Reads a map; of two members of one name the later counts. -/
def dictionary? {α : Type} (read : Document → Option α) : Document → Option (SortedMap String α)
  | object members => do
    let members ← namedMembers? members
    let entries ← members.mapM fun member => (read member.2).map fun value => (member.1, value)
    return SortedMap.ofList entries
  | _ => none

end Document

/-- Reads any value whose arrays and objects nest at most `depth` deep. -/
def ofDocument? (depth : Nat) (document : Document) : Option Json :=
  match depth, document with
  | _, .null => some null
  | _, .bool b => some (bool b)
  | _, .number n => n.map number
  | _, .string s => s.map string
  | depth + 1, .array items => (items.mapM (ofDocument? depth)).map array
  | depth + 1, .object members => do
    let members ← Document.namedMembers? members
    let entries ← members.mapM fun member =>
      (ofDocument? depth member.2).map fun value => (member.1, value)
    return object (Entries.ofList entries)
  | 0, _ => none

end Json
end RecordCache
