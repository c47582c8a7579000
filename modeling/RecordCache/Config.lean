import RecordCache.Error
import RecordCache.Instant

/-!
# Configuration

A chain of tiers is described from the fastest tier to the slowest.

* `MemoryConfig`, `StoreConfig`: the settings of a memory tier and of the persistent tier;
* `TierConfig`, `ChainConfig`;
* `MemoryConfig.validate`, `StoreConfig.validate`, `ChainConfig.validate` find the first setting
  that makes no sense.
-/

namespace RecordCache

/-- The settings of a memory tier. -/
structure MemoryConfig where
  /-- The weight in bytes that the records may have together. -/
  maxWeight : Nat := 10 * 1024 * 1024
  /-- The age since its last write at which a record counts as absent. -/
  expireAfter : Option Duration := none
  /-- Whether dates in headers are stamped into the metadata of fields. -/
  trackDates : Bool := false
  deriving DecidableEq, Inhabited

/-- The settings of the persistent tier. -/
structure StoreConfig where
  /-- The file of the table; without one the table is private. -/
  path : Option String := none
  /-- How many parameters one statement may bind; longer batches are split. -/
  maxParameters : Nat := 999
  /-- Whether rows have columns for dates. -/
  trackDates : Bool := false
  deriving DecidableEq, Inhabited

/-- The settings of one tier. -/
inductive TierConfig
  | memory (config : MemoryConfig)
  | store (config : StoreConfig)
  deriving DecidableEq, Inhabited

/-- The tiers of a chain, fastest first. -/
structure ChainConfig where
  tiers : List TierConfig
  deriving DecidableEq, Inhabited

/-- A memory tier needs room, and an age of expiry that is not zero. -/
def MemoryConfig.validate (config : MemoryConfig) : Except ConfigError Unit :=
  if config.maxWeight = 0 then
    .error (.invalidValue "max_size_bytes" "0" "memory budget must be positive")
  else if config.expireAfter = some ⟨0⟩ then
    .error (.invalidValue "expire_after" "0s" "use None to disable age-based expiry")
  else .ok ()

/-- The persistent tier needs at least one parameter. -/
def StoreConfig.validate (config : StoreConfig) : Except ConfigError Unit :=
  if config.maxParameters = 0 then
    .error (.invalidValue "max_parameters" "0" "at least one bound parameter is required")
  else .ok ()

namespace ChainConfig

/-- Checks tiers in order; `index` is the number of tiers before. Only the last one may be
persistent. -/
def validateTiers (index : Nat) : List TierConfig → Except ConfigError Unit
  | [] => .ok ()
  | .memory config :: rest => do
    config.validate
    validateTiers (index + 1) rest
  | .store config :: rest => do
    config.validate
    if rest.isEmpty then .ok ()
    else .error (.invalidValue ("tiers[" ++ String.ofList (Text.decimal index) ++ "]") "sql"
      "the persistent tier must be last in the chain")

/-- A chain needs a tier, sensible settings, and its persistent tier in the last place. -/
def validate (config : ChainConfig) : Except ConfigError Unit :=
  if config.tiers.isEmpty then .error (.missingRequired "tiers")
  else validateTiers 0 config.tiers

end ChainConfig
end RecordCache
