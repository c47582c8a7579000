import RecordCache.Chain.Build

/-!
# Sessions

A session holds a chain, the files behind it and the time, and runs actions one after the other:
operations of the chain, the passing of time, building the chain anew, and looking at or damaging
the stored rows. It measures no file: every file counts as one of a single page.

* `Blueprint`: how a chain is to be built;
* `Session.start`, `Session.perform`: begin, and run one action;
* `Session.stats?`, `Session.keys`: what can be seen after each action.
-/

namespace RecordCache

/-- How a chain is to be built: from a configuration, which is validated, or tier by tier. The head
of a chain built tier by tier can be looked at. -/
inductive Blueprint
  | validated (config : ChainConfig)
  | direct (plans : List TierPlan)

/-- The tier that an operation is for. -/
inductive Target
  | head
  | next
  deriving DecidableEq

/-- Something that happens in a session. -/
inductive Action
  | run (target : Target) (command : Command)
  | count
  | config
  | advance (nanoseconds : Int)
  | reopen (blueprint : Option Blueprint)
  | rows (file : String)
  | corrupt (file : String) (key : Key) (blob : String)
  | dropTable (file : String)

/-- What an action answers. -/
inductive Answer
  | reply (reply : Reply)
  | noNextTier
  | nothing
  | counted (count : Except StorageError Nat) (size : Nat)
  | config (config : TierConfig)
  | table (table : Option Table)
  | changedRows (n : Nat)

/-- What ends a session. -/
inductive Failure
  /-- A chain cannot be built. -/
  | refused (error : CacheError)
  /-- Rows are to be written with the date of a moment that has none. -/
  | noDate

/-- A chain in use. -/
structure Session where
  /-- How the chain was built. -/
  blueprint : Blueprint
  /-- How it is built anew when nothing else is said. -/
  standard : Blueprint
  chain : Chain
  disk : Disk
  now : Instant

namespace Session

/-- Builds a chain. -/
def build (disk : Disk) : Blueprint → Except CacheError (Chain × Disk)
  | .validated config => Chain.ofConfig disk config
  | .direct plans => Chain.assemble disk plans

/-- Begins a session. -/
def start (blueprint : Blueprint) (disk : Disk) (now : Instant) : Except CacheError Session := do
  let (chain, disk) ← build disk blueprint
  return ⟨blueprint, blueprint, chain, disk, now⟩

/-- Puts the table of the persistent tier back into its file. -/
def save (session : Session) : Session :=
  match session.chain.store? with
  | some ⟨{ path := some path, .. }, db⟩ => { session with disk := session.disk.save path db }
  | _ => session

/-- Whether the persistent tier keeps its table in the file. -/
def uses (session : Session) (file : String) : Bool :=
  match session.chain.store? with
  | some s => s.config.path.map Path.place = some (Path.place file)
  | none => false

/-- Replaces the table of a file, also where the chain uses it. -/
def setTable (session : Session) (file : String) (table : Option Table) : Session :=
  { session with
    disk := session.disk.save file ⟨table⟩
    chain := if session.uses file then session.chain.withDatabase ⟨table⟩ else session.chain }

/-- The chain, if its head can be looked at. -/
def visible (session : Session) : Chain :=
  match session.blueprint with
  | .validated _ => .empty
  | .direct _ => session.chain

/-- Runs an operation on a chain, which then takes its place in the session; `place` says how. -/
def runOn (session : Session) (chain : Chain) (place : Chain → Chain) (command : Command) :
    Except Failure (Answer × Session × List Report) :=
  if chain.asksDate command && !session.now.hasDate then .error .noDate
  else
    let outcome := chain.run session.now command
    .ok (.reply outcome.value, { session with chain := place outcome.state }.save, outcome.reports)

/-- Runs an operation on the tier behind the head, if that can be looked at. -/
def runNext (session : Session) (command : Command) :
    Except Failure (Answer × Session × List Report) :=
  match session.visible with
  | .memory _ .empty => .ok (.noNextTier, session, [])
  | .memory m next => session.runOn next (.memory m) command
  | _ => session.runOn session.chain id command

/-- Runs one action; a failure ends the session. -/
def perform (session : Session) : Action → Except Failure (Answer × Session × List Report)
  | .run .head command => session.runOn session.chain id command
  | .run .next command => session.runNext command
  | .count =>
    match session.visible with
    | .store s => .ok (.counted s.count FileSizes.onePage.before, session, [])
    | _ => .ok (.nothing, session, [])
  | .config =>
    match session.visible with
    | .store s => .ok (.config (.store s.config), session, [])
    | .memory m _ => .ok (.config (.memory m.config), session, [])
    | .empty => .ok (.nothing, session, [])
  | .advance nanoseconds =>
    .ok (.nothing, { session with now := session.now.advance nanoseconds }, [])
  | .reopen blueprint =>
    match start (blueprint.getD session.standard) session.disk session.now with
    | .ok opened => .ok (.nothing, { opened with standard := session.standard }, [])
    | .error error => .error (.refused error)
  | .rows file => .ok (.table (session.disk.table? file), session, [])
  | .corrupt file key blob =>
    match session.disk.table? file with
    | some table =>
      let rows := table.rows.map fun row => if row.key = key then { row with blob := blob } else row
      .ok (.changedRows (table.rows.countP fun row => row.key = key),
        session.setTable file (some { table with rows := rows }), [])
    | none => .ok (.changedRows 0, session, [])
  | .dropTable file =>
    match session.disk.table? file with
    | some _ => .ok (.nothing, session.setTable file none, [])
    | none => .ok (.nothing, session, [])

/-- The counters of the head, if it is a memory tier that can be looked at. -/
def stats? (session : Session) : Option Stats :=
  match session.visible with
  | .memory m _ => some m.lru.stats
  | _ => none

/-- The keys of every tier. -/
def keys (session : Session) : List (String × List Key) :=
  (session.chain.dump session.now).value.entries.map fun entry => (entry.1, entry.2.keys)

end Session
end RecordCache
