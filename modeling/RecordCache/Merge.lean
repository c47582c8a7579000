import RecordCache.Headers
import RecordCache.Record

/-!
# Merging records

A merger combines the record stored under a key with an incoming one of the same key, and names the
paths of the fields that changed.

* `Merger.overwrite`: incoming fields win, except that an error does not take the place of a value
  unless the headers allow it;
* `Merger.byField`: a field present in both is left to a function on fields with their metadata;
* `Merger.sum`, `keepExisting`, `dropFields`: three small mergers;
* `Merger.merge?`: merges two records, and refuses records of different keys.
-/

namespace RecordCache

/-- A merged record and the paths of the fields that changed. -/
structure Merged where
  record : Record
  changed : NameSet

/-- A way to combine an existing record with an incoming one. -/
structure Merger where
  merge : (existing incoming : Record) → Headers → Merged
  /-- Whether the merger is `Merger.overwrite`, which a table may apply without reading rows. -/
  isFieldOverwrite : Bool := false

/-- The value of a field with its metadata. -/
structure FieldInfo where
  value : Value
  metadata : FieldMetadata

/-- A way to combine two versions of a field. -/
abbrev FieldMerger := (existing incoming : FieldInfo) → FieldInfo

namespace Merger

/-- Whether an incoming value takes the place of the stored one, if any: not when it is equal, and
not when it is an error in place of a value, unless errors replace values. -/
def replaces (errorsReplace : Bool) (stored : Option Value) (incoming : Value) : Bool :=
  match stored with
  | none => true
  | some old => !old.equals incoming && (!incoming.isError || old.isError || errorsReplace)

/-- Incoming fields win, and the others stay. -/
def overwrite : Merger where
  merge existing incoming headers :=
    let errorsReplace := headers.has Headers.errorsReplaceCachedValues
    let accepted := incoming.fields.filter fun field value =>
      replaces errorsReplace (existing.fields.find? field) value
    { record :=
        { key := existing.key
          typeName := incoming.typeName
          fields := existing.fields.overlay accepted
          metadata := FieldMetadata.overlayAll existing.metadata incoming.metadata
          mutation := incoming.mutation }
      changed := .ofList (accepted.keys.map existing.key.fieldPath) }
  isFieldOverwrite := true

/-- What becomes of an incoming field: its value, and the stored metadata with the new entries laid
over them. -/
def mergeField (merge : FieldMerger) (existing incoming : Record) (field : String)
    (value : Value) : FieldInfo :=
  let arriving : FieldInfo := ⟨value, incoming.metadataOf field⟩
  let result :=
    match existing.fields.find? field with
    | some old => merge ⟨old, existing.metadataOf field⟩ arriving
    | none => arriving
  { result with metadata := (existing.metadataOf field).overlay result.metadata }

/-- Whether a field is different from the one stored. -/
def isChanged (existing : Record) (field : String) (result : FieldInfo) : Bool :=
  let sameValue :=
    match existing.fields.find? field with
    | some old => old.equals result.value
    | none => false
  !sameValue || !(existing.metadataOf field).equals result.metadata

/-- Leaves each field present in both records to `merge`. -/
def byField (merge : FieldMerger) : Merger where
  merge existing incoming _ :=
    let results := incoming.fields.entries.map fun entry =>
      (entry.1, mergeField merge existing incoming entry.1 entry.2)
    let described := results.filter fun result => !result.2.metadata.isEmpty
    let changed := results.filter fun result => isChanged existing result.1 result.2
    { record :=
        { key := existing.key
          typeName := incoming.typeName
          fields := results.foldl (fun fields result => fields.insert result.1 result.2.value)
            existing.fields
          metadata := described.foldl
            (fun metadata result => metadata.insert result.1 result.2.metadata) existing.metadata
          mutation := incoming.mutation }
      changed := .ofList (changed.map fun result => existing.key.fieldPath result.1) }

/-- Adds two integers, wrapping around in 64 bits; of other values the incoming one counts. -/
def sumFields : FieldMerger := fun existing incoming =>
  match existing.value, incoming.value with
  | .int m, .int n => ⟨.int (m + n), ∅⟩
  | _, _ => incoming

/-- Adds the integers of fields present in both records. -/
def sum : Merger := byField sumFields

/-- Keeps the stored record as it is. -/
def keepExisting : Merger where
  merge existing _ _ := ⟨existing, ∅⟩

/-- Leaves a record without fields, and counts every incoming field as changed. -/
def dropFields : Merger where
  merge existing incoming _ := ⟨Record.new existing.key "Dropped", incoming.fieldPaths⟩

/-- Why two records cannot be merged. -/
inductive Error
  | differentKeys
  deriving DecidableEq, Inhabited

/-- The message for records that cannot be merged. -/
def Error.message : Error → String
  | differentKeys => "cannot merge records with different keys"

/-- Merges two records of one key. -/
def merge? (merger : Merger) (existing incoming : Record) (headers : Headers) :
    Except Error Merged :=
  if existing.key = incoming.key then .ok (merger.merge existing incoming headers)
  else .error .differentKeys

end Merger
end RecordCache
