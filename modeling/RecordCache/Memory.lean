import RecordCache.Config
import RecordCache.Lru
import RecordCache.Merge
import RecordCache.Record.Dates
import RecordCache.Record.References
import RecordCache.Record.Weight

/-!
# The memory tier

A memory tier keeps the records used last, as many as fit its weight. These are its operations on
its own records; the chain adds what the next tier does.

* `Memory.load`, `put`: read and write one record;
* `Memory.merge`: merges records into those held;
* `Memory.removeKeys`: removes records with all they refer to, one key at a time;
* `Memory.removeWhere`, `clear`, `dump`.
-/

namespace RecordCache

/-- The weight of a record under a key. -/
abbrev Weigher := Key → Record → Nat

/-- The weigher that estimates bytes. -/
def Weigher.bytes : Weigher := fun _ r => r.weight

/-- The weigher that counts records. -/
def Weigher.one : Weigher := fun _ _ => 1

/-- A memory tier. -/
structure Memory where
  config : MemoryConfig
  lru : Lru Key Record

namespace Memory

/-- The name of the tier. -/
def tierName : String := "memory"

/-- An empty tier. -/
def new (config : MemoryConfig) (weigh : Weigher) : Memory :=
  ⟨config, Lru.new config.maxWeight weigh config.expireAfter⟩

/-- Reads a record, and removes it if `evict` says so. -/
def load (m : Memory) (now : Instant) (evict : Bool) (key : Key) : Option Record × Memory :=
  match m.lru.get now key with
  | (some r, lru) => (some r, { m with lru := if evict then (lru.remove now key).2 else lru })
  | (none, lru) => (none, { m with lru := lru })

/-- What a tier holds of a list of keys: the records found by key, and the keys it misses in
order. -/
structure Found where
  records : SortedMap Key Record
  missing : List Key

/-- Reads records one after the other. -/
def loadAll (m : Memory) (now : Instant) (evict : Bool) : List Key → Found → Found × Memory
  | [], found => ({ found with missing := found.missing.reverse }, m)
  | key :: keys, found =>
    match m.load now evict key with
    | (some r, m) => loadAll m now evict keys { found with records := found.records.insert key r }
    | (none, m) => loadAll m now evict keys { found with missing := key :: found.missing }

/-- Writes a record under a key. -/
def put (m : Memory) (now : Instant) (key : Key) (r : Record) : Memory :=
  { m with lru := (m.lru.insert now key r).2 }

/-- Merges a record with the one held under its key, if there is one. -/
def mergeOne (now : Instant) (headers : Headers) (merger : Merger) (m : Memory)
    (incoming : Record) : NameSet × Memory :=
  let incoming := incoming.stamped m.config.trackDates headers
  match m.lru.peek now incoming.key with
  | none => (incoming.fieldPaths, m.put now incoming.key incoming)
  | some existing =>
    let merged := merger.merge existing incoming headers
    (merged.changed, m.put now merged.record.key merged.record)

/-- Merges records one after the other, and gives the paths of the fields that changed. -/
def merge (m : Memory) (now : Instant) (records : List Record) (headers : Headers)
    (merger : Merger) : NameSet × Memory :=
  records.foldl (fun result incoming =>
    let step := mergeOne now headers merger result.2 incoming
    (result.1 ∪ step.1, step.2)) (∅, m)

/-- Removes the records under the keys of a queue, keys already visited aside, and counts them. A
cascading removal puts the keys that a removed record refers to at the end of the queue. -/
def removeQueue (lru : Lru Key Record) (now : Instant) (cascade : Bool) (visited : SortedSet Key)
    (queue : List Key) (removed : Nat) : Nat × Lru Key Record :=
  match queue with
  | [] => (removed, lru)
  | key :: queue =>
    if visited.contains key then removeQueue lru now cascade visited queue removed
    else
      match h : lru.remove now key with
      | (none, lru) => removeQueue lru now cascade (visited.insert key) queue removed
      | (some r, lru) =>
        let visited := visited.insert key
        let references :=
          if cascade then r.referencedKeys.toList.filter fun key => !visited.contains key else []
        removeQueue lru now cascade visited (queue ++ references) (removed + 1)
termination_by (lru.size, queue.length)
decreasing_by
  · exact Prod.Lex.right _ (by simp)
  · rcases Nat.lt_or_eq_of_le (Lru.size_remove_none _ _ _ _ h) with hlt | heq
    · exact Prod.Lex.left _ _ hlt
    · rw [heq]; exact Prod.Lex.right _ (by simp)
  · exact Prod.Lex.left _ _ (Lru.size_remove_some _ _ _ _ _ h)

/-- Removes records, with all they refer to when the removal cascades, and counts them. -/
def removeKeys (m : Memory) (now : Instant) (keys : List Key) (cascade : Bool) : Nat × Memory :=
  let (removed, lru) := removeQueue m.lru now cascade ∅ keys 0
  (removed, { m with lru := lru })

/-- Removes the records that `matching` accepts, and counts them. -/
def removeWhere (m : Memory) (now : Instant) (matching : Key → Record → Bool) : Nat × Memory :=
  let (removed, lru) := m.lru.removeWhere now matching
  (removed.length, { m with lru := lru })

/-- Removes every record. -/
def clear (m : Memory) : Memory := { m with lru := m.lru.clear }

/-- Every live record by key. -/
def dump (m : Memory) (now : Instant) : SortedMap Key Record := .ofList (m.lru.snapshot now)

end Memory
end RecordCache
