import RecordCache.Config
import RecordCache.Json.Printer
import RecordCache.Json.Reader
import RecordCache.Word

/-!
# Configuration as JSON

A chain is an object with a list of tiers, and a tier an object with a member for its kind beside
its settings. Settings that are left out have their defaults.

* `ChainConfig.print` writes a configuration with all its settings;
* `ChainConfig.parse` reads one.
-/

namespace RecordCache

/-- A natural number as a JSON value; numbers beyond 64 bits do not occur. -/
def Json.ofNat (n : Nat) : Json :=
  match Json.Integer.ofInt? n with
  | some n => .number (.integer n)
  | none => .null

namespace Duration

/-- The seconds and nanoseconds of a length of time. -/
def toJson (d : Duration) : Json :=
  .object [("secs", .ofNat d.seconds), ("nanos", .ofNat d.subsecond)]

/-- Reads seconds of 64 bits and nanoseconds of 32 bits. Nanoseconds beyond a second carry, and the
seconds must still fit; there are no other members. -/
def ofDocument? (document : Json.Document) : Option Duration := do
  match document with
  | .object members =>
    let members ← Json.Document.namedMembers? members
    if members.any fun member => member.1 ≠ "secs" ∧ member.1 ≠ "nanos" then none
  | _ => pure ()
  match ← document.fields? ["secs", "nanos"] with
  | [some seconds, some nanoseconds] =>
    let seconds ← seconds.nat?
    let nanoseconds ← nanoseconds.nat?
    if nanoseconds < Word.count32 then ofParts? seconds nanoseconds else none
  | _ => none

end Duration

/-- Reads null as nothing, and anything else with `read`. -/
def Json.Document.nullable? {α : Type} (read : Json.Document → Option α) :
    Json.Document → Option (Option α)
  | .null => some none
  | document => (read document).map some

/-- Reads a setting, which has a default. -/
def Json.Document.setting? {α : Type} (standard : α) (read : Json.Document → Option α) :
    Option Json.Document → Option α
  | none => some standard
  | some document => read document

/-- The settings of a memory tier as members. -/
def MemoryConfig.toMembers (config : MemoryConfig) : List (String × Json) :=
  [("max_size_bytes", .ofNat config.maxWeight),
    ("expire_after", (config.expireAfter.map Duration.toJson).getD .null),
    ("track_dates", .bool config.trackDates)]

/-- Reads the settings of a memory tier. -/
def MemoryConfig.ofDocument? (document : Json.Document) : Option MemoryConfig := do
  let standard : MemoryConfig := {}
  match ← document.fields? ["max_size_bytes", "expire_after", "track_dates"] with
  | [maxWeight, expireAfter, trackDates] =>
    return {
      maxWeight := ← Json.Document.setting? standard.maxWeight Json.Document.nat? maxWeight
      expireAfter := ← Json.Document.setting? standard.expireAfter
        (Json.Document.nullable? Duration.ofDocument?) expireAfter
      trackDates := ← Json.Document.setting? standard.trackDates Json.Document.bool? trackDates }
  | _ => none

/-- The settings of the persistent tier as members. -/
def StoreConfig.toMembers (config : StoreConfig) : List (String × Json) :=
  [("path", (config.path.map Json.string).getD .null),
    ("max_parameters", .ofNat config.maxParameters),
    ("track_dates", .bool config.trackDates)]

/-- Reads the settings of the persistent tier. -/
def StoreConfig.ofDocument? (document : Json.Document) : Option StoreConfig := do
  let standard : StoreConfig := {}
  match ← document.fields? ["path", "max_parameters", "track_dates"] with
  | [path, maxParameters, trackDates] =>
    return {
      path := ← Json.Document.setting? standard.path
        (Json.Document.nullable? Json.Document.string?) path
      maxParameters := ← Json.Document.setting? standard.maxParameters
        Json.Document.nat? maxParameters
      trackDates := ← Json.Document.setting? standard.trackDates Json.Document.bool? trackDates }
  | _ => none

namespace TierConfig

/-- The JSON form of a tier: its kind and its settings. -/
def toJson : TierConfig → Json
  | memory config => .object (("kind", .string "memory") :: config.toMembers)
  | store config => .object (("kind", .string "sql") :: config.toMembers)

/-- Reads the settings that go with a kind. -/
def ofKind? (kind : String) (settings : Json.Document) : Option TierConfig :=
  if kind = "memory" then (MemoryConfig.ofDocument? settings).map memory
  else if kind = "sql" then (StoreConfig.ofDocument? settings).map store
  else none

/-- Whether every literal in the document denotes something, and arrays and objects nest at most
`depth` deep. -/
def isWhole (depth : Nat) (document : Json.Document) : Bool :=
  (Json.ofDocument? depth document).isSome

/-- Reads a tier: an object with exactly one member for its kind, or an array that starts with the
kind and goes on with the settings. -/
def ofDocument? (depth : Nat) (document : Json.Document) : Option TierConfig :=
  if isWhole depth document then
    match document with
    | .object members => do
      let kinds := members.filter fun member => member.1 = some "kind"
      let settings := members.filter fun member => member.1 ≠ some "kind"
      match kinds with
      | [(_, kind)] => ofKind? (← kind.string?) (.object settings)
      | _ => none
    | .array (kind :: settings) => do ofKind? (← kind.string?) (.array settings)
    | _ => none
  else none

end TierConfig

namespace ChainConfig

/-- The JSON form of a configuration. -/
def toJson (config : ChainConfig) : Json :=
  .object [("tiers", .array (config.tiers.map TierConfig.toJson))]

/-- Reads a configuration whose arrays and objects nest at most a given depth. -/
def ofDocument? : Nat → Json.Document → Option ChainConfig
  | depth + 2, document => do
    match ← document.fields? ["tiers"] with
    | [some tiers] => return ⟨← tiers.list? (TierConfig.ofDocument? depth)⟩
    | _ => none
  | _, _ => none

/-- The JSON text of a configuration. -/
def print (config : ChainConfig) : String := config.toJson.print

/-- Reads a configuration from a JSON text. -/
def parse (text : String) : Except StorageError ChainConfig :=
  match (Json.Document.parse? text).bind (ofDocument? Json.depthLimit) with
  | some config => .ok config
  | none => .error (.serializationFailed "the text is not the JSON form of a configuration")

end ChainConfig
end RecordCache
