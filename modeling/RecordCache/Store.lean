import RecordCache.Config
import RecordCache.Database
import RecordCache.Merge
import RecordCache.Outcome
import RecordCache.Pattern

/-!
# The persistent tier

A store keeps records in a table. Each operation is one transaction: when a statement fails, the
table is as before, the result is empty, and the error is reported.

* `Store.run` is the transaction;
* `Store.load`, `merge`, `removeKeys`, `removeMatching`, `removeTypes`, `clear`, `dump`, `trim` are
  the operations of a tier;
* `FileSizes` are what a trim finds the file to measure;
* `Store.mergeFast` and `Store.mergeRows` are the two ways to merge: blobs laid over the stored
  ones, and records merged after reading the rows.
-/

namespace RecordCache

/-- What the file of a table measures in bytes, before a trim and after it. How rows are laid out in
pages, and which pages are left free, depends on the database and on every statement that has ever
changed the file, and not on the rows alone; so a trim takes the sizes as it finds them. -/
structure FileSizes where
  before : Nat
  after : Nat
  deriving DecidableEq, Inhabited

/-- A file of one page. -/
def FileSizes.onePage : FileSizes := ⟨4096, 4096⟩

/-- The persistent tier. -/
structure Store where
  config : StoreConfig
  database : Database
  deriving Inhabited

namespace Store

/-- The name of the tier. -/
def tierName : String := "sql"

/-- Runs a transaction: its result and its changes, or the empty result, no change and a report. -/
def run {α : Type} (store : Store) (operation : String) (fallback : α)
    (transaction : Database → Except StorageError (α × Database)) : Outcome Store α :=
  match transaction store.database with
  | .ok (value, database) => ⟨value, { store with database := database }, []⟩
  | .error error => ⟨fallback, store, [⟨operation, .storage error⟩]⟩

/-- Reads records, and removes them when the headers say so. -/
def loadIn (config : StoreConfig) (keys : List Key) (headers : Headers) (db : Database) :
    Except StorageError (List Record × Database) := do
  let found := Batch.byKey (← db.select config.maxParameters keys)
  let db ←
    if headers.has Headers.evictAfterRead && !found.isEmpty then
      Prod.snd <$> db.deleteKeys config.maxParameters found.keys
    else pure db
  return (Batch.inOrder found keys, db)

/-- Reads the records of some keys. -/
def load (store : Store) (keys : List Key) (headers : Headers) : Outcome Store (List Record) :=
  if headers.has Headers.memoryCacheOnly || keys.isEmpty then ⟨[], store, []⟩
  else store.run "load_records" [] (loadIn store.config keys headers)

/-- Merges records by laying their blobs over the stored ones. -/
def mergeFast (config : StoreConfig) (dates : WriteDates) (records : List Record)
    (db : Database) : Except StorageError (NameSet × Database) := do
  let db ← db.upsert ⟨true, config.trackDates⟩ config.maxParameters
    (records.map (dates.row config.trackDates))
  return (.ofList (records.flatMap fun r => r.fieldPaths.toList), db)

/-- The records of a batch merged so far. -/
structure Progress where
  current : SortedMap Key Record
  dirty : SortedMap Key Record
  changed : NameSet

/-- Merges one record of a batch. A merged record without fields is not written. -/
def mergeOne (headers : Headers) (merger : Merger) (progress : Progress) (incoming : Record) :
    Progress :=
  match progress.current.find? incoming.key with
  | none =>
    { current := progress.current.insert incoming.key incoming
      dirty := progress.dirty.insert incoming.key incoming
      changed := progress.changed ∪ incoming.fieldPaths }
  | some existing =>
    let merged := merger.merge existing incoming headers
    let changed := progress.changed ∪ merged.changed
    if merged.record.isEmpty then { progress with changed := changed }
    else
      { current := progress.current.insert merged.record.key merged.record
        dirty := progress.dirty.insert merged.record.key merged.record
        changed := changed }

/-- Merges records with the rows of their keys, and writes each key that is written once. -/
def mergeRows (config : StoreConfig) (dates : WriteDates) (records : List Record)
    (headers : Headers) (merger : Merger) (db : Database) :
    Except StorageError (NameSet × Database) := do
  let stored := Batch.byKey (← db.select config.maxParameters (records.map Record.key))
  let progress := records.foldl (mergeOne headers merger) ⟨stored, ∅, ∅⟩
  let db ← db.upsert ⟨false, config.trackDates⟩ config.maxParameters
    (progress.dirty.values.map (dates.row config.trackDates))
  return (progress.changed, db)

/-- Merges records, the fast way when the merger and the headers allow it. -/
def mergeIn (config : StoreConfig) (now : Instant) (records : List Record) (headers : Headers)
    (merger : Merger) (db : Database) : Except StorageError (NameSet × Database) :=
  let dates := WriteDates.ofHeaders now headers
  if merger.isFieldOverwrite && headers.has Headers.errorsReplaceCachedValues then
    mergeFast config dates records db
  else mergeRows config dates records headers merger db

/-- Merges records and gives the paths of the fields that changed. -/
def merge (store : Store) (now : Instant) (records : List Record) (headers : Headers)
    (merger : Merger) : Outcome Store NameSet :=
  if headers.has Headers.doNotStore || records.isEmpty || headers.has Headers.memoryCacheOnly then
    ⟨∅, store, []⟩
  else
    store.run "merge_records" ∅ (mergeIn store.config now
      (records.map (Record.stamped store.config.trackDates headers)) headers merger)

/-- Removes records, with all they refer to when the removal cascades, and counts them. -/
def removeKeys (store : Store) (keys : List Key) (cascade : Bool) : Outcome Store Nat :=
  let limit := store.config.maxParameters
  store.run "remove_keys" 0 fun db => do
    let targets ← if cascade then db.reachable limit keys else pure keys
    db.deleteKeys limit targets

/-- Removes the records whose key matches a pattern, and counts them. -/
def removeMatching (store : Store) (pattern : Pattern) : Outcome Store Nat :=
  store.run "remove_matching" 0 (Database.deleteMatching pattern.glob)

/-- Removes the records of some types, and counts them. -/
def removeTypes (store : Store) (types : List String) : Outcome Store Nat :=
  if types.isEmpty then ⟨0, store, []⟩
  else store.run "remove_by_types" 0 (Database.deleteTypes store.config.maxParameters types)

/-- Removes every record. -/
def clear (store : Store) : Outcome Store Unit :=
  store.run "clear_all" () fun db => do
    let (_, db) ← db.deleteAll
    return ((), db)

/-- Every record by key. -/
def dump (store : Store) : Outcome Store (SortedMap Key Record) :=
  store.run "dump" ∅ fun db => do
    let records ← db.selectAll
    return (Batch.byKey records, db)

/-- How many of so many rows a trim by a factor removes: that share of them, rounded up. The factor
counts as at least zero and at most one; a NaN removes nothing. -/
def doomed (count : Nat) (factor : Binary64) : Nat :=
  if factor.isNaN then 0
  else
    let share := factor.toFloat
    let share := if share < 0 then 0 else if 1 < share then 1 else share
    (Binary64.ofFloat ((Binary64.ofNat64 count).toFloat * share)).ceil

/-- Removes a share of the rows, those written longest ago, once the size of the file has reached a
limit. -/
def trimIn (maxSize : Nat) (factor : Binary64) (sizes : FileSizes) (db : Database) :
    Except StorageError (Option Nat × Database) := do
  if sizes.before < maxSize then return (some sizes.before, db)
  let count ← db.count
  let (_, db) ← db.deleteOldest (doomed count factor)
  return (some sizes.after, db)

/-- Trims the table and gives the size of the file. -/
def trim (store : Store) (maxSize : Nat) (factor : Binary64) (sizes : FileSizes) :
    Outcome Store (Option Nat) :=
  store.run "trim" none (trimIn maxSize factor sizes)

/-- The number of records. -/
def count (store : Store) : Except StorageError Nat := store.database.count

end Store
end RecordCache
