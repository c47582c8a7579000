import RecordCache.Memory
import RecordCache.Store

/-!
# Chains of tiers

A chain is a row of memory tiers, fastest first, that may end in the persistent tier. A read that a
tier cannot serve goes on to the next tier, and what that one gives is written back; a write or a
removal happens in every tier.

* `Chain.load`, `loadAll`, `merge`, `removeKeys`, `removeMatching`, `removeTypes`, `clear`, `dump`,
  `trim`: the operations;
* `Command`, `Reply`, `Chain.run`: the operations as data;
* `Chain.asksDate`: whether an operation needs a moment that has a date.
-/

namespace RecordCache

/-- The tiers, fastest first. -/
inductive Chain
  | empty
  | store (store : Store)
  | memory (memory : Memory) (next : Chain)

/-- The records of a tier by key, for each tier by name. -/
abbrev Dump := SortedMap String (SortedMap Key Record)

namespace Chain

/-- The name of the first tier. -/
def name : Chain → String
  | empty => ""
  | store _ => Store.tierName
  | memory _ _ => Memory.tierName

/-- Reads one record. What a memory tier gets from the next one it keeps, unless records are to be
evicted after reading. -/
def load (now : Instant) (key : Key) (headers : Headers) : Chain → Outcome Chain (Option Record)
  | empty => ⟨none, empty, []⟩
  | store s => ((s.load [key] headers).mapValue List.head?).mapState store
  | memory m next =>
    let evict := headers.has Headers.evictAfterRead
    match m.load now evict key with
    | (some r, m) => ⟨some r, memory m next, []⟩
    | (none, m) =>
      let outcome := load now key headers next
      let m :=
        match outcome.value with
        | some r => if evict then m else m.put now key r
        | none => m
      outcome.mapState (memory m)

/-- Reads several records: each that is found once, in the order in which the keys are listed
first. -/
def loadAll (now : Instant) (keys : List Key) (headers : Headers) :
    Chain → Outcome Chain (List Record)
  | empty => ⟨[], empty, []⟩
  | store s => (s.load keys headers).mapState store
  | memory m next =>
    let evict := headers.has Headers.evictAfterRead
    let (found, m) := m.loadAll now evict keys ⟨∅, []⟩
    if found.missing.isEmpty then ⟨Batch.inOrder found.records keys, memory m next, []⟩
    else
      let outcome := loadAll now found.missing headers next
      let m := if evict then m else outcome.value.foldl (fun m r => m.put now r.key r) m
      let records := outcome.value.foldl (fun records r => records.insert r.key r) found.records
      (outcome.mapState (memory m)).mapValue fun _ => Batch.inOrder records keys

/-- Merges records in every tier, and gives the paths of the fields that changed in any. -/
def merge (now : Instant) (records : List Record) (headers : Headers) (merger : Merger) :
    Chain → Outcome Chain NameSet
  | empty => ⟨∅, empty, []⟩
  | store s => (s.merge now records headers merger).mapState store
  | memory m next =>
    if headers.has Headers.doNotStore then ⟨∅, memory m next, []⟩
    else
      let (changed, m) := m.merge now records headers merger
      ((merge now records headers merger next).mapState (memory m)).mapValue (changed ∪ ·)

/-- Removes records from every tier; the count is the largest of any tier. -/
def removeKeys (now : Instant) (keys : List Key) (cascade : Bool) : Chain → Outcome Chain Nat
  | empty => ⟨0, empty, []⟩
  | store s => (s.removeKeys keys cascade).mapState store
  | memory m next =>
    let (removed, m) := m.removeKeys now keys cascade
    ((removeKeys now keys cascade next).mapState (memory m)).mapValue (max removed)

/-- Removes the records whose key matches from every tier; the count is the largest of any tier. -/
def removeMatched (now : Instant) (pattern : Pattern) : Chain → Outcome Chain Nat
  | empty => ⟨0, empty, []⟩
  | store s => (s.removeMatching pattern).mapState store
  | memory m next =>
    let (removed, m) := m.removeWhere now fun key _ => pattern.accepts key
    ((removeMatched now pattern next).mapState (memory m)).mapValue (max removed)

/-- Removes the records whose key matches a pattern. A text that is no pattern changes nothing. -/
def removeMatching (now : Instant) (source : String) (chain : Chain) :
    Outcome Chain (Except PatternError Nat) :=
  match Pattern.parse source with
  | .ok pattern => (removeMatched now pattern chain).mapValue .ok
  | .error error => ⟨.error error, chain, []⟩

/-- Removes the records of some types from every tier; the count is the largest of any tier. -/
def removeTypes (now : Instant) (types : List String) : Chain → Outcome Chain Nat
  | empty => ⟨0, empty, []⟩
  | store s => (s.removeTypes types).mapState store
  | memory m next =>
    let (removed, m) := m.removeWhere now fun _ r => types.contains r.typeName
    ((removeTypes now types next).mapState (memory m)).mapValue (max removed)

/-- Removes every record. -/
def clear : Chain → Outcome Chain Unit
  | empty => ⟨(), empty, []⟩
  | store s => s.clear.mapState store
  | memory m next => (clear next).mapState (memory m.clear)

/-- The records of every tier; of two memory tiers the first counts. -/
def dump (now : Instant) : Chain → Outcome Chain Dump
  | empty => ⟨∅, empty, []⟩
  | store s =>
    (s.dump.mapState store).mapValue fun records => SortedMap.ofList [(Store.tierName, records)]
  | memory m next =>
    ((dump now next).mapState (memory m)).mapValue fun dump =>
      dump.insert Memory.tierName (m.dump now)

/-- Trims the persistent tier and gives the size of its file; none without such a tier or when it
fails. -/
def trim (maxSize : Nat) (factor : Binary64) (sizes : FileSizes) :
    Chain → Outcome Chain (Option Nat)
  | empty => ⟨none, empty, []⟩
  | store s => (s.trim maxSize factor sizes).mapState store
  | memory m next => (trim maxSize factor sizes next).mapState (memory m)

end Chain

/-- An operation of a chain, with what it finds: a trim measures the file of the persistent tier. -/
inductive Command
  | load (key : Key) (headers : Headers)
  | loadAll (keys : List Key) (headers : Headers)
  | merge (records : List Record) (headers : Headers) (merger : Merger)
  | remove (key : Key) (cascade : Bool)
  | removeAll (keys : List Key) (cascade : Bool)
  | removeMatching (pattern : String)
  | removeTypes (types : List String)
  | clear
  | dump
  | trim (maxSize : Nat) (factor : Binary64) (sizes : FileSizes := .onePage)
  | name

/-- The result of an operation. -/
inductive Reply
  | record (r : Option Record)
  | records (rs : List Record)
  | changed (paths : NameSet)
  | flag (b : Bool)
  | count (n : Nat)
  | refused (error : PatternError)
  | done
  | dump (dump : Dump)
  | size (n : Option Nat)
  | name (text : String)

/-- Whether a chain ends in a persistent tier. -/
def Chain.isPersistent : Chain → Bool
  | .empty => false
  | .store _ => true
  | .memory _ next => next.isPersistent

/-- Whether an operation asks for the date: it writes rows whose date no header gives. -/
def Chain.asksDate (chain : Chain) : Command → Bool
  | .merge records headers _ =>
    chain.isPersistent && !records.isEmpty && !headers.has Headers.doNotStore &&
      !headers.has Headers.memoryCacheOnly && (headers.int64? Headers.receivedDate).isNone
  | _ => false

/-- Runs an operation. -/
def Chain.run (now : Instant) (chain : Chain) : Command → Outcome Chain Reply
  | .load key headers => (chain.load now key headers).mapValue .record
  | .loadAll keys headers => (chain.loadAll now keys headers).mapValue .records
  | .merge records headers merger => (chain.merge now records headers merger).mapValue .changed
  | .remove key cascade => (chain.removeKeys now [key] cascade).mapValue fun n => .flag (0 < n)
  | .removeAll keys cascade => (chain.removeKeys now keys cascade).mapValue .count
  | .removeMatching pattern => (chain.removeMatching now pattern).mapValue fun
    | .ok n => .count n
    | .error error => .refused error
  | .removeTypes types => (chain.removeTypes now types).mapValue .count
  | .clear => chain.clear.mapValue fun _ => .done
  | .dump => (chain.dump now).mapValue .dump
  | .trim maxSize factor sizes => (chain.trim maxSize factor sizes).mapValue .size
  | .name => ⟨.name chain.name, chain, []⟩

end RecordCache
