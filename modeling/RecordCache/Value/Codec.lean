import RecordCache.Error
import RecordCache.Json.Printer
import RecordCache.Json.Reader
import RecordCache.Value

/-!
# Field values as JSON

A value is written as an object with one member that names its kind; the null value is the bare
word.

* `Value.toJson` writes a value;
* `Value.ofDocument?` reads one whose arrays and objects nest at most a given depth;
* `Value.print`, `Value.parse` go to and from text.
-/

namespace RecordCache
namespace FieldError

/-- The members of an error; an empty path is left out. -/
def toJson (e : FieldError) : Json :=
  .object (("message", .string e.message) ::
    if e.path.isEmpty then [] else [("path", .array (e.path.map .string))])

/-- Reads the path of an error, a list of strings; a missing one is empty. -/
def pathOfDocument? : Nat → Option Json.Document → Option (List String)
  | _, none => some []
  | _ + 1, some path => path.list? Json.Document.string?
  | 0, some _ => none

/-- Reads the members of an error. -/
def ofDocument? : Nat → Json.Document → Option FieldError
  | depth + 1, document => do
    match ← document.fields? ["message", "path"] with
    | [some message, path] => return ⟨← message.string?, ← pathOfDocument? depth path⟩
    | _ => none
  | 0, _ => none

end FieldError

namespace Value

mutual

/-- The JSON form of a value. -/
def toJson : Value → Json
  | null => .string "null"
  | boolean b => .object [("boolean", .bool b)]
  | int n => .object [("int", .ofInt64 n)]
  | float x => .object [("float", .number (.float x))]
  | string s => .object [("string", .string s)]
  | reference key => .object [("reference", .string key.text)]
  | list items => .object [("list", .array (itemsToJson items))]
  | object members => .object [("object", .object (membersToJson members))]
  | error e => .object [("error", e.toJson)]

/-- The JSON forms of the items. -/
def itemsToJson : List Value → List Json
  | [] => []
  | item :: items => item.toJson :: itemsToJson items

/-- The members with their values in JSON form. -/
def membersToJson : List (String × Value) → List (String × Json)
  | [] => []
  | (name, value) :: members => (name, value.toJson) :: membersToJson members

end

/-- A number literal as a floating-point number. -/
def floatOfNumber : Json.Number → Binary64
  | .integer n =>
    if n.toInt < 0 then (Binary64.ofNat64 n.toInt.natAbs).neg else Binary64.ofNat64 n.toInt.natAbs
  | .float x => x

/-- Reads a value whose arrays and objects nest at most `depth` deep. -/
def ofDocument? (depth : Nat) (document : Json.Document) : Option Value :=
  match depth, document with
  | _, .string (some "null") => some null
  | depth + 1, .object [(some kind, content)] =>
    match kind, depth, content with
    | "null", _, .null => some null
    | "boolean", _, content => content.bool?.map boolean
    | "int", _, content => (content.integer?.bind Json.Integer.int64?).map int
    | "float", _, content => content.number?.map fun n => float (floatOfNumber n)
    | "string", _, content => content.string?.map string
    | "reference", _, content => content.string?.map fun text => reference ⟨text⟩
    | "list", depth + 1, .array items => (items.mapM (ofDocument? depth)).map list
    | "object", depth + 1, .object members => do
      let members ← Json.Document.namedMembers? members
      let entries ← members.mapM fun member =>
        (ofDocument? depth member.2).map fun value => (member.1, value)
      return object (Entries.ofList entries)
    | "error", depth, content => (FieldError.ofDocument? depth content).map error
    | _, _, _ => none
  | _, _ => none

/-- The JSON text of a value. -/
def print (value : Value) : String := value.toJson.print

/-- Reads a value from a JSON text. -/
def parse (text : String) : Except StorageError Value :=
  match (Json.Document.parse? text).bind (ofDocument? Json.depthLimit) with
  | some value => .ok value
  | none => .error (.serializationFailed "the text is not the JSON form of a value")

end Value
end RecordCache
