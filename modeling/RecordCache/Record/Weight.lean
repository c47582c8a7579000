import RecordCache.Json.Printer
import RecordCache.Record

/-!
# Weights of records

The weight of a record estimates the memory it takes, in bytes: texts count by their length in
UTF-8, and values and records have a fixed overhead each.
-/

namespace RecordCache
namespace Value

/-- The overhead of a reference, a list, an object or an error. -/
def overhead : Nat := 16

mutual

/-- The weight of a value. -/
def weight : Value → Nat
  | null => 4
  | boolean _ => 16
  | int _ => 8
  | float _ => 8
  | string s => s.utf8ByteSize
  | reference key => overhead + key.text.utf8ByteSize
  | list items => overhead + itemWeight items
  | object members => overhead + memberWeight members
  | error e => overhead + e.message.utf8ByteSize

/-- The weight of the items together. -/
def itemWeight : List Value → Nat
  | [] => 0
  | item :: items => item.weight + itemWeight items

/-- The weight of the members together, their names included. -/
def memberWeight : List (String × Value) → Nat
  | [] => 0
  | (name, value) :: members => name.utf8ByteSize + value.weight + memberWeight members

end

end Value

/-- The weight of the entries of a map together, their names included. -/
def Entries.weight {α : Type} (weigh : α → Nat) : List (String × α) → Nat
  | [] => 0
  | entry :: entries => entry.1.utf8ByteSize + weigh entry.2 + Entries.weight weigh entries

/-- The weight of the metadata of a field: the names and the JSON texts of the entries. -/
def FieldMetadata.weight (metadata : FieldMetadata) : Nat :=
  Entries.weight (fun value => value.print.utf8ByteSize) metadata.entries

namespace Record

/-- The overhead of a record. -/
def overhead : Nat := 16

/-- The weight of a mutation identifier. -/
def mutationWeight : Nat := 16

/-- The weight of a record. -/
def weight (r : Record) : Nat :=
  overhead + r.key.text.utf8ByteSize + Value.memberWeight r.fields.entries +
    Entries.weight FieldMetadata.weight r.metadata.entries +
    if r.mutation.isSome then mutationWeight else 0

end Record
end RecordCache
