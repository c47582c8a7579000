import RecordCache.Batch
import RecordCache.Record.References
import RecordCache.Table

/-!
# Statements on the table

A statement reads or changes the table, and fails when there is none or when it binds too many
parameters. A batch is split into chunks of as many as the tier allows, one statement for each.

* `Database.select`, `selectAll` read the records of some keys, in ascending order, or of all rows;
* `Database.upsert` writes rows; `deleteKeys`, `deleteTypes`, `deleteMatching`, `deleteOldest`
  remove them;
* `Database.reachable` follows the references between records.
-/

namespace RecordCache

universe u

/-- The table, which may be missing. -/
structure Database where
  table : Option Table
  deriving DecidableEq, Inhabited

namespace Database

/-- Makes sure that there is a table, and that it has columns for dates when they are tracked. -/
def prepare (trackDates : Bool) (db : Database) : Database :=
  match db.table with
  | some table => ⟨some { table with hasDates := table.hasDates || trackDates }⟩
  | none => ⟨some ⟨[], trackDates⟩⟩

/-- The table, for a statement that needs it. -/
def requireTable (db : Database) : Except StorageError Table :=
  match db.table with
  | some table => .ok table
  | none => .error (.queryFailed "no such table: records")

/-- The parameters that a statement may bind. -/
def maxParameters : Nat := 32766

/-- Binds so many parameters to a statement. -/
def bind (count : Nat) : Except StorageError Unit :=
  if count ≤ maxParameters then .ok () else .error (.queryFailed "too many SQL variables")

/-- Runs a statement that removes rows. -/
def delete (statement : Table → Nat × Table) (db : Database) :
    Except StorageError (Nat × Database) := do
  let table ← db.requireTable
  let (removed, table) := statement table
  return (removed, ⟨some table⟩)

/-- Runs one statement for each chunk and counts the rows removed. -/
def deleteChunks {α : Type u} (statement : List α → Table → Nat × Table) :
    List (List α) → Database → Except StorageError (Nat × Database)
  | [], db => .ok (0, db)
  | chunk :: rest, db => do
    bind chunk.length
    let (removed, db) ← db.delete (statement chunk)
    let (more, db) ← deleteChunks statement rest db
    return (removed + more, db)

/-- The records of the keys that have a row, in the order of the keys. -/
def selectChunk (db : Database) (keys : List Key) : Except StorageError (List Record) := do
  let table ← db.requireTable
  bind keys.length
  (keys.filterMap table.find?).mapM Row.decode

/-- The records of some keys, in ascending order of key. -/
def select (db : Database) (limit : Nat) (keys : List Key) : Except StorageError (List Record) := do
  let found ← (Batch.chunks limit (Batch.distinct keys)).mapM db.selectChunk
  return found.flatten

/-- The records of all rows, in order of insertion. -/
def selectAll (db : Database) : Except StorageError (List Record) := do
  let table ← db.requireTable
  table.rows.mapM Row.decode

/-- The number of columns written. -/
def columns (mode : WriteMode) : Nat := if mode.trackDates then 6 else 4

/-- Writes rows with one statement. -/
def upsertChunk (mode : WriteMode) (db : Database) (rows : List Row) :
    Except StorageError Database := do
  let table ← db.requireTable
  bind (rows.length * columns mode)
  let table ← rows.foldlM (Table.upsert mode) table
  return ⟨some table⟩

/-- Writes rows in order. -/
def upsert (mode : WriteMode) (limit : Nat) (rows : List Row) (db : Database) :
    Except StorageError Database :=
  (Batch.chunks (limit / columns mode) rows).foldlM (upsertChunk mode) db

/-- Removes the rows with one of the keys. -/
def deleteKeys (limit : Nat) (keys : List Key) (db : Database) :
    Except StorageError (Nat × Database) :=
  deleteChunks Table.deleteKeys (Batch.chunks limit (Batch.distinct keys)) db

/-- Removes the rows of one of the types. -/
def deleteTypes (limit : Nat) (types : List String) (db : Database) :
    Except StorageError (Nat × Database) :=
  deleteChunks Table.deleteTypes (Batch.chunks limit types) db

/-- Removes the rows whose key matches a glob. It fails when a key has to be compared with a glob
that is too long. -/
def deleteMatching (glob : String) (db : Database) : Except StorageError (Nat × Database) := do
  let table ← db.requireTable
  if Glob.isTooLong glob && table.rows.any fun row => Glob.compares glob row.key then
    throw (.queryFailed "LIKE or GLOB pattern too complex")
  else db.delete (Table.deleteMatching glob)

/-- Removes every row. -/
def deleteAll (db : Database) : Except StorageError (Nat × Database) :=
  db.delete (Table.deleteWhere fun _ => true)

/-- Removes so many rows, those written longest ago. -/
def deleteOldest (n : Nat) (db : Database) : Except StorageError (Nat × Database) :=
  db.delete (Table.deleteOldest n)

/-- The number of rows. -/
def count (db : Database) : Except StorageError Nat := Table.count <$> db.requireTable

/-- Adds to the visited keys what the records refer to; also the keys that are new, in order. -/
def visitReferences (visited : SortedSet Key) (records : List Record) :
    SortedSet Key × List Key :=
  (records.flatMap fun r => r.referencedKeys.toList).foldl (fun seen key =>
    if seen.1.contains key then seen else (seen.1.insert key, seen.2 ++ [key])) (visited, [])

/-- Adds to the visited keys those reachable from the frontier, one generation of references at a
time. Each generation but the last reads a row that was not read before, which bounds the fuel. -/
def reach (db : Database) (limit : Nat) :
    Nat → SortedSet Key → List Key → Except StorageError (SortedSet Key)
  | 0, visited, _ => .ok visited
  | fuel + 1, visited, frontier => do
    if frontier.isEmpty then return visited
    let records ← db.select limit frontier
    let (visited, next) := visitReferences visited records
    reach db limit fuel visited next

/-- The keys given and all reachable from them by references between records. -/
def reachable (db : Database) (limit : Nat) (keys : List Key) :
    Except StorageError (List Key) := do
  let visited := SortedSet.ofList keys
  let rows := match db.table with
    | some table => table.count
    | none => 0
  let visited ← db.reach limit (rows + 2) visited visited.toList
  return visited.toList

end Database
end RecordCache
