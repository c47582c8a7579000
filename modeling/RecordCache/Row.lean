import RecordCache.Error
import RecordCache.Instant
import RecordCache.Record.Codec
import RecordCache.Record.Dates

/-!
# Rows

The persistent tier keeps one row for each record: its key, its type, the blob of its stored part
and the date of its last write.

* `Row.decode` reads the record of a row, `Row.overlayBlob` lays one blob over another;
* `WriteDates` are the dates written with a batch, and `WriteDates.row` is the row of a record.
-/

namespace RecordCache

/-- The row of a record. -/
structure Row where
  key : Key
  typeName : String
  blob : String
  /-- The date of the last write in milliseconds since the epoch. -/
  updatedDate : Int64
  /-- The date of receipt in seconds since the epoch, when dates are tracked. -/
  receivedDate : Option Int64
  /-- The date of expiration in seconds since the epoch, when dates are tracked. -/
  expirationDate : Option Int64
  deriving DecidableEq, Inhabited

/-- The record of a row. -/
def Row.decode (row : Row) : Except StorageError Record :=
  match Blob.decode? row.key row.typeName row.blob with
  | some r => .ok r
  | none => .error (.corruptedRecord row.key "the blob is not the JSON text of a record")

/-- Lays a blob over the stored one. -/
def Row.overlayBlob (stored top : String) : Except StorageError String :=
  match Blob.overlayText? stored top with
  | some blob => .ok blob
  | none => .error (.queryFailed "a blob cannot be laid over the stored one")

/-- The dates written with a batch of records. -/
structure WriteDates where
  updated : Int64
  received : Option Int64
  expiration : Option Int64

namespace WriteDates

/-- Seconds in milliseconds, or the nearest integer of 64 bits. -/
def toMilliseconds (seconds : Int64) : Int64 := Int64.ofIntClamp (seconds.toInt * 1000)

/-- The dates that headers and clock give: the write counts as done when the data were received. -/
def ofHeaders (now : Instant) (headers : Headers) : WriteDates :=
  let received := headers.int64? Headers.receivedDate
  { updated := match received with
      | some seconds => toMilliseconds seconds
      | none => now.milliseconds
    received := received
    expiration := headers.int64? Headers.expirationDate }

/-- The row of a record. Dates that no header gives are the latest of its fields. -/
def row (dates : WriteDates) (trackDates : Bool) (r : Record) : Row where
  key := r.key
  typeName := r.typeName
  blob := Blob.encode r
  updatedDate := dates.updated
  receivedDate := if trackDates then dates.received.or r.receivedDate? else none
  expirationDate := if trackDates then dates.expiration.or r.expirationDate? else none

end WriteDates
end RecordCache
