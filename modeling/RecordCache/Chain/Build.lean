import RecordCache.Chain
import RecordCache.Disk

/-!
# Building chains

A chain is put together from the last tier to the first, so that each tier can be given the one
behind it. The persistent tier takes none; a description that has tiers behind it is refused by
`Chain.ofConfig`, and `Chain.assemble` leaves those tiers out.

* `Store.open`: the persistent tier, with its table found or made;
* `Memory.new?`: a memory tier with sensible settings;
* `Chain.assemble`, `Chain.ofConfig`.
-/

namespace RecordCache

/-- A tier to be built: its settings and, for a memory tier, its weigher. -/
structure TierPlan where
  config : TierConfig
  weigh : Weigher := Weigher.bytes

/-- Opens the table of a persistent tier; without a path it is a new one. -/
def Store.open (disk : Disk) (config : StoreConfig) : Except CacheError (Store × Disk) := do
  match config.validate with
  | .error error => throw (.config error)
  | .ok () => pure ()
  match config.path with
  | none => return (⟨config, Database.prepare config.trackDates ⟨none⟩⟩, disk)
  | some path =>
    match disk.open? path with
    | none => throw (.storage (.openFailed path "the file cannot be opened as a table"))
    | some (disk, db) =>
      let db := db.prepare config.trackDates
      return (⟨config, db⟩, disk.save path db)

/-- An empty memory tier. -/
def Memory.new? (config : MemoryConfig) (weigh : Weigher) : Except CacheError Memory :=
  match config.validate with
  | .error error => .error (.config error)
  | .ok () => .ok (Memory.new config weigh)

namespace Chain

/-- Builds tiers from the last to the first. -/
def assemble (disk : Disk) : List TierPlan → Except CacheError (Chain × Disk)
  | [] => .ok (empty, disk)
  | plan :: plans => do
    let (next, disk) ← assemble disk plans
    match plan.config with
    | .memory config =>
      let m ← Memory.new? config plan.weigh
      return (memory m next, disk)
    | .store config =>
      let (s, disk) ← Store.open disk config
      return (store s, disk)

/-- Builds the chain that a configuration describes, once it is found valid. -/
def ofConfig (disk : Disk) (config : ChainConfig) : Except CacheError (Chain × Disk) :=
  match config.validate with
  | .error error => .error (.config error)
  | .ok () => assemble disk (config.tiers.map fun tier => { config := tier })

/-- The persistent tier at the end of the chain. -/
def store? : Chain → Option Store
  | empty => none
  | store s => some s
  | memory _ next => next.store?

/-- The chain with another table in its persistent tier. -/
def withDatabase (db : Database) : Chain → Chain
  | empty => empty
  | store s => store { s with database := db }
  | memory m next => memory m (withDatabase db next)

end Chain
end RecordCache
