import RecordCache.Record
import RecordCache.Value.Codec

/-!
# Records as JSON

A record has two JSON forms: the whole of it, and the blob that a row of the persistent tier keeps
beside the key and the type.

* `Record.toJson`, `Record.ofDocument?`: the whole record; metadata and mutation identifier are
  left out when there are none;
* `Blob` with `Blob.encode`, `Blob.decode?`: the stored part, which always has its metadata;
* `Blob.overlay`, `Blob.overlayText?`: one blob laid over another.
-/

namespace RecordCache

/-- Reads the metadata of a field. -/
def FieldMetadata.ofDocument? : Nat → Json.Document → Option FieldMetadata
  | depth + 1, document => document.dictionary? (Json.ofDocument? depth)
  | 0, _ => none

/-- The members of a map, each written by `write`. -/
def SortedMap.toJson {α : Type} (write : α → Json) (m : SortedMap String α) : Json :=
  .object (m.entries.map fun entry => (entry.1, write entry.2))

/-- The metadata of a field as an object. -/
def FieldMetadata.toJson (metadata : FieldMetadata) : Json := SortedMap.toJson id metadata

namespace Record

/-- The fields as an object. -/
def fieldsToJson (fields : SortedMap String Value) : Json := fields.toJson Value.toJson

/-- The metadata of all fields as an object. -/
def metadataToJson (metadata : SortedMap String FieldMetadata) : Json :=
  metadata.toJson FieldMetadata.toJson

/-- The member of a mutation identifier, if there is one. -/
def mutationMember : Option MutationId → List (String × Json)
  | some id => [("mutation_id", .string id.text)]
  | none => []

/-- Reads the fields. -/
def fieldsOfDocument? : Nat → Json.Document → Option (SortedMap String Value)
  | depth + 1, document => document.dictionary? (Value.ofDocument? depth)
  | 0, _ => none

/-- Reads the metadata of all fields; missing metadata are empty. -/
def metadataOfDocument? : Nat → Option Json.Document → Option (SortedMap String FieldMetadata)
  | _, none => some ∅
  | depth + 1, some document => document.dictionary? (FieldMetadata.ofDocument? depth)
  | 0, some _ => none

/-- Reads a mutation identifier; a missing one and null are none. -/
def mutationOfDocument? : Option Json.Document → Option (Option MutationId)
  | none => some none
  | some .null => some none
  | some document => (document.string?.bind MutationId.parse?).map some

/-- The JSON form of a record. -/
def toJson (r : Record) : Json :=
  .object ([("key", .string r.key.text), ("type", .string r.typeName),
      ("fields", fieldsToJson r.fields)] ++
    (if r.metadata.isEmpty then [] else [("metadata", metadataToJson r.metadata)]) ++
    mutationMember r.mutation)

/-- Reads a record whose arrays and objects nest at most a given depth. -/
def ofDocument? : Nat → Json.Document → Option Record
  | depth + 1, document => do
    match ← document.fields? ["key", "type", "fields", "metadata", "mutation_id"] with
    | [some key, some typeName, some fields, metadata, mutation] =>
      return {
        key := ⟨← key.string?⟩
        typeName := ← typeName.string?
        fields := ← fieldsOfDocument? depth fields
        metadata := ← metadataOfDocument? depth metadata
        mutation := ← mutationOfDocument? mutation }
    | _ => none
  | 0, _ => none

/-- The JSON text of a record. -/
def print (r : Record) : String := r.toJson.print

/-- Reads a record from a JSON text. -/
def parse (text : String) : Except StorageError Record :=
  match (Json.Document.parse? text).bind (ofDocument? Json.depthLimit) with
  | some r => .ok r
  | none => .error (.serializationFailed "the text is not the JSON form of a record")

end Record

/-- The part of a record that is stored as text. -/
structure Blob where
  fields : SortedMap String Value
  metadata : SortedMap String FieldMetadata
  mutation : Option MutationId

namespace Blob

/-- The stored part of a record. -/
def ofRecord (r : Record) : Blob := ⟨r.fields, r.metadata, r.mutation⟩

/-- The record with this stored part. -/
def toRecord (blob : Blob) (key : Key) (typeName : String) : Record :=
  ⟨key, typeName, blob.fields, blob.metadata, blob.mutation⟩

/-- The JSON form of a blob. -/
def toJson (blob : Blob) : Json :=
  .object ([("fields", Record.fieldsToJson blob.fields),
      ("metadata", Record.metadataToJson blob.metadata)] ++
    Record.mutationMember blob.mutation)

/-- Reads a blob whose arrays and objects nest at most a given depth. -/
def ofDocument? : Nat → Json.Document → Option Blob
  | depth + 1, document => do
    match ← document.fields? ["fields", "metadata", "mutation_id"] with
    | [some fields, metadata, mutation] =>
      return {
        fields := ← Record.fieldsOfDocument? depth fields
        metadata := ← Record.metadataOfDocument? depth metadata
        mutation := ← Record.mutationOfDocument? mutation }
    | _ => none
  | 0, _ => none

/-- The JSON text of a blob. -/
def print (blob : Blob) : String := blob.toJson.print

/-- Reads a blob from a JSON text. -/
def parse? (text : String) : Option Blob :=
  (Json.Document.parse? text).bind (ofDocument? Json.depthLimit)

/-- The stored text of a record. -/
def encode (r : Record) : String := (ofRecord r).print

/-- The record with a stored text. -/
def decode? (key : Key) (typeName : String) (text : String) : Option Record :=
  (parse? text).map fun blob => blob.toRecord key typeName

/-- Lays a blob over a stored one: its fields, metadata entries and mutation identifier win, and
the other fields and entries stay. -/
def overlay (stored top : Blob) : Blob where
  fields := stored.fields.overlay top.fields
  metadata := FieldMetadata.overlayAll stored.metadata top.metadata
  mutation := top.mutation

/-- Lays one stored text over another; none when either cannot be read. -/
def overlayText? (stored top : String) : Option String := do
  let stored ← parse? stored
  let top ← parse? top
  return (overlay stored top).print

end Blob
end RecordCache
