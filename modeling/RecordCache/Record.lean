import RecordCache.Json
import RecordCache.MutationId
import RecordCache.Value

/-!
# Records

A record is one entity: typed, with fields, and with metadata for each field.

* `Record` and its fields, metadata and mutation identifier;
* `Record.fieldPaths`: the paths of its fields;
* `FieldMetadata.overlayAll`: metadata laid over stored ones, entry by entry.
-/

namespace RecordCache

/-- The metadata of one field. -/
abbrev FieldMetadata := SortedMap String Json

/-- A set of names or field paths. -/
abbrev NameSet := SortedSet String

namespace FieldMetadata

/-- The integer under a name. -/
def int64? (metadata : FieldMetadata) (name : String) : Option Int64 :=
  (metadata.find? name).bind Json.int64?

/-- The text under a name. -/
def string? (metadata : FieldMetadata) (name : String) : Option String :=
  (metadata.find? name).bind Json.string?

/-- Equality entry by entry. -/
def equals (a b : FieldMetadata) : Bool := Json.equalMembers a.entries b.entries

end FieldMetadata

/-- Lays the metadata of fields over stored ones, entry by entry. -/
def FieldMetadata.overlayAll (stored top : SortedMap String FieldMetadata) :
    SortedMap String FieldMetadata :=
  top.entries.foldl (fun metadata entry =>
    metadata.insert entry.1 (((metadata.find? entry.1).getD ∅).overlay entry.2)) stored

/-- One entity as it is cached. -/
structure Record where
  key : Key
  typeName : String
  fields : SortedMap String Value
  metadata : SortedMap String FieldMetadata
  mutation : Option MutationId
  deriving Inhabited

namespace Record

/-- A record without fields. -/
def new (key : Key) (typeName : String) : Record := ⟨key, typeName, ∅, ∅, none⟩

/-- The record with a value in a field. -/
def withField (r : Record) (field : String) (value : Value) : Record :=
  { r with fields := r.fields.insert field value }

/-- The metadata of a field, empty when there is none. -/
def metadataOf (r : Record) (field : String) : FieldMetadata := (r.metadata.find? field).getD ∅

/-- The record with a metadata entry for a field. -/
def withMetadata (r : Record) (field name : String) (value : Json) : Record :=
  { r with metadata := r.metadata.insert field ((r.metadataOf field).insert name value) }

/-- The record with a mutation identifier. -/
def withMutation (r : Record) (id : MutationId) : Record := { r with mutation := some id }

/-- Whether the record has no field. -/
def isEmpty (r : Record) : Bool := r.fields.isEmpty

/-- The paths of the fields. -/
def fieldPaths (r : Record) : NameSet := .ofList (r.fields.keys.map r.key.fieldPath)

end Record
end RecordCache
