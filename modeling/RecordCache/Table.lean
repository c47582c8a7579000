import RecordCache.Pattern.Glob
import RecordCache.Row

/-!
# The table of records

The rows of the persistent tier stay in the order in which they were first inserted: writing a row
leaves it in its place, and a row for a new key goes to the end.

* `Table.find?` looks a row up;
* `Table.upsert` writes a row, in place of the blob it had or laid over it;
* `Table.deleteKeys`, `deleteMatching`, `deleteTypes`, `deleteOldest` remove rows and count them.
-/

namespace RecordCache

/-- The rows in order of insertion. -/
structure Table where
  rows : List Row
  /-- Whether the table has columns for the dates of receipt and expiration. -/
  hasDates : Bool
  deriving DecidableEq, Inhabited

/-- How rows are written. -/
structure WriteMode where
  /-- Whether a blob is laid over the stored one instead of replacing it. -/
  overlay : Bool
  /-- Whether the columns for dates are written. -/
  trackDates : Bool

namespace Table

/-- The row under a key. -/
def find? (table : Table) (key : Key) : Option Row := table.rows.find? fun row => row.key = key

/-- The number of rows. -/
def count (table : Table) : Nat := table.rows.length

/-- What becomes of a stored row when one with its key is written. -/
def updateRow (mode : WriteMode) (stored row : Row) : Except StorageError Row := do
  let blob ← if mode.overlay then Row.overlayBlob stored.blob row.blob else .ok row.blob
  return {
    key := stored.key
    typeName := row.typeName
    blob := blob
    updatedDate := row.updatedDate
    receivedDate := if mode.trackDates then row.receivedDate else stored.receivedDate
    expirationDate := if mode.trackDates then row.expirationDate else stored.expirationDate }

/-- Writes a row into the list of rows: in the place of the row with its key, else at the end. -/
def upsertRow (mode : WriteMode) (row : Row) : List Row → Except StorageError (List Row)
  | [] => .ok [row]
  | stored :: rows =>
    if stored.key = row.key then (· :: rows) <$> updateRow mode stored row
    else (stored :: ·) <$> upsertRow mode row rows

/-- Writes a row. -/
def upsert (mode : WriteMode) (table : Table) (row : Row) : Except StorageError Table :=
  (fun rows => { table with rows := rows }) <$> upsertRow mode row table.rows

/-- The table without the rows that `doomed` accepts, and their number. -/
def deleteWhere (doomed : Row → Bool) (table : Table) : Nat × Table :=
  (table.rows.countP doomed, { table with rows := table.rows.filter fun row => !doomed row })

/-- Removes the rows with one of the keys. -/
def deleteKeys (keys : List Key) : Table → Nat × Table :=
  deleteWhere fun row => keys.contains row.key

/-- Removes the rows whose key matches a glob. -/
def deleteMatching (glob : String) : Table → Nat × Table :=
  deleteWhere fun row => Glob.selects glob row.key

/-- Removes the rows of one of the types. -/
def deleteTypes (types : List String) : Table → Nat × Table :=
  deleteWhere fun row => types.contains row.typeName

/-- The rows in the order of their last write, those of one date in order of insertion. -/
def oldestFirst (table : Table) : List Row :=
  table.rows.mergeSort fun a b => a.updatedDate ≤ b.updatedDate

/-- Removes so many rows, those written longest ago. -/
def deleteOldest (n : Nat) (table : Table) : Nat × Table :=
  table.deleteKeys ((table.oldestFirst.take n).map Row.key)

end Table
end RecordCache
