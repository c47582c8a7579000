import RecordCache.Headers
import RecordCache.Record

/-!
# Dates of a record

The metadata of a field may say when its value was received and when it expires, in seconds since
the epoch.

* `Record.withDates`: stamps dates into the metadata of every field, and `Record.stamped` those of
  the headers;
* `Record.receivedDate?`, `expirationDate?`: the latest dates stamped on any field.
-/

namespace RecordCache
namespace FieldMetadata

/-- The entry that holds the date of receipt, in seconds since the epoch. -/
def receivedDate : String := "received_date"

/-- The entry that holds the date of expiration, in seconds since the epoch. -/
def expirationDate : String := "expiration_date"

/-- Writes an integer under a name, if there is one. -/
def withDate (metadata : FieldMetadata) (name : String) : Option Int64 → FieldMetadata
  | some date => metadata.insert name (.ofInt64 date)
  | none => metadata

end FieldMetadata

namespace Record

/-- The record with the given dates in the metadata of every field; a date that is not given is
left as it is. -/
def withDates (r : Record) (received expiration : Option Int64) : Record :=
  if received.isNone && expiration.isNone then r
  else
    let stamp (metadata : SortedMap String FieldMetadata) (field : String) :=
      let entries := (metadata.find? field).getD ∅
      metadata.insert field ((entries.withDate FieldMetadata.receivedDate received).withDate
        FieldMetadata.expirationDate expiration)
    { r with metadata := r.fields.keys.foldl stamp r.metadata }

/-- The latest of the dates under a name in the metadata of any field. -/
def latestDate? (r : Record) (name : String) : Option Int64 :=
  (r.metadata.values.filterMap (·.int64? name)).max?

/-- The latest date of receipt of any field. -/
def receivedDate? (r : Record) : Option Int64 := r.latestDate? FieldMetadata.receivedDate

/-- The latest date of expiration of any field. -/
def expirationDate? (r : Record) : Option Int64 := r.latestDate? FieldMetadata.expirationDate

/-- The record with the dates of the headers, if dates are tracked. -/
def stamped (trackDates : Bool) (headers : Headers) (r : Record) : Record :=
  if trackDates then
    r.withDates (headers.int64? Headers.receivedDate) (headers.int64? Headers.expirationDate)
  else r

end Record
end RecordCache
