import RecordCache.Proofs.Database.Reach
import RecordCache.Proofs.Store.Transaction

/-!
# Operations that fail leave the rows alone

Each operation of a persistent tier is a procedure: most open a transaction and run any number of
statements in it, the others are a single statement. Whatever the blobs of the rows hold, and
wherever the procedure stops, the operation is done as a whole or not at all.

* `Store.Request` are the operations, with what they answer, what they answer when they fail and the
  name they report under;
* `Store.Request.procedure` are their statements, and `Store.execute` runs them without undoing
  anything;
* `Store.answer_settles`: an operation does what its statements do;
* `Store.load_detects`, `cascade_detects`: which rows make a load or a cascading removal fail;
* `Store.answer_all_or_nothing` puts these together.
-/

namespace RecordCache

universe u v

/-- A failure was reported that is not about a row: a statement was refused. -/
def Outcome.Refused {σ : Type u} {α : Type v} (outcome : Outcome σ α) : Prop :=
  ∃ report ∈ outcome.reports, ∃ error, report.error = .storage error ∧ error.isCorrupted = false

theorem Outcome.not_refused {σ : Type u} {α : Type v} (value : α) (state : σ) :
    ¬Outcome.Refused ⟨value, state, []⟩ := by
  rintro ⟨report, hreport, -⟩
  exact List.not_mem_nil hreport

namespace Store

/-- An operation on the rows. -/
inductive Request
  | load (keys : List Key) (headers : Headers)
  | merge (now : Instant) (records : List Record) (headers : Headers) (merger : Merger)
  | removeKeys (keys : List Key) (cascade : Bool)
  | removeMatching (pattern : Pattern)
  | removeTypes (types : List String)
  | clear
  | dump

namespace Request

/-- The type of what is answered. -/
def Answer : Request → Type
  | load _ _ => List Record
  | merge _ _ _ _ => NameSet
  | removeKeys _ _ => Nat
  | removeMatching _ => Nat
  | removeTypes _ => Nat
  | clear => Unit
  | dump => SortedMap Key Record

/-- The name in reports. -/
def name : Request → String
  | load _ _ => "load_records"
  | merge _ _ _ _ => "merge_records"
  | removeKeys _ _ => "remove_keys"
  | removeMatching _ => "remove_matching"
  | removeTypes _ => "remove_by_types"
  | clear => "clear_all"
  | dump => "dump"

/-- What is answered when nothing is done. -/
def nothing : (request : Request) → request.Answer
  | load _ _ => ([] : List Record)
  | merge _ _ _ _ => (∅ : NameSet)
  | removeKeys _ _ => (0 : Nat)
  | removeMatching _ => (0 : Nat)
  | removeTypes _ => (0 : Nat)
  | clear => ()
  | dump => (∅ : SortedMap Key Record)

end Request

/-- Does what is asked for. -/
def answer (store : Store) : (request : Request) → Outcome Store request.Answer
  | .load keys headers => store.load keys headers
  | .merge now records headers merger => store.merge now records headers merger
  | .removeKeys keys cascade => store.removeKeys keys cascade
  | .removeMatching pattern => store.removeMatching pattern
  | .removeTypes types => store.removeTypes types
  | .clear => store.clear
  | .dump => store.dump

/-! ### Operations as procedures -/

section Procedures

open Procedure

/-- Reads records, and removes them when the headers say so. -/
def loadProcedure (config : StoreConfig) (keys : List Key) (headers : Headers) :
    Procedure (List Record) := do
  let found := Batch.byKey (← select config.maxParameters keys)
  if headers.has Headers.evictAfterRead && !found.isEmpty then
    let _ ← deleteKeys config.maxParameters found.keys
    return Batch.inOrder found keys
  else return Batch.inOrder found keys

/-- Merges records by laying their blobs over the stored ones. -/
def mergeFastProcedure (config : StoreConfig) (dates : WriteDates) (records : List Record) :
    Procedure NameSet := do
  upsert ⟨true, config.trackDates⟩ config.maxParameters
    (records.map (dates.row config.trackDates))
  return .ofList (records.flatMap fun r => r.fieldPaths.toList)

/-- Merges records with the rows of their keys, and writes each key that is written once. -/
def mergeRowsProcedure (config : StoreConfig) (dates : WriteDates) (records : List Record)
    (headers : Headers) (merger : Merger) : Procedure NameSet := do
  let stored := Batch.byKey (← select config.maxParameters (records.map Record.key))
  let progress := records.foldl (mergeOne headers merger) ⟨stored, ∅, ∅⟩
  upsert ⟨false, config.trackDates⟩ config.maxParameters
    (progress.dirty.values.map (dates.row config.trackDates))
  return progress.changed

/-- Merges records, the fast way when the merger and the headers allow it. -/
def mergeProcedure (config : StoreConfig) (now : Instant) (records : List Record)
    (headers : Headers) (merger : Merger) : Procedure NameSet :=
  let dates := WriteDates.ofHeaders now headers
  if merger.isFieldOverwrite && headers.has Headers.errorsReplaceCachedValues then
    mergeFastProcedure config dates records
  else mergeRowsProcedure config dates records headers merger

/-- Removes records, with all they refer to when the removal cascades. -/
def removeProcedure (config : StoreConfig) (keys : List Key) (cascade : Bool) :
    Procedure Nat := do
  let targets ← if cascade then reachable config.maxParameters keys else pure keys
  deleteKeys config.maxParameters targets

/-- The statements of an operation, and its transaction if it has one. -/
def Request.procedure (config : StoreConfig) : (request : Request) → Procedure request.Answer
  | .load keys headers =>
    if headers.has Headers.memoryCacheOnly || keys.isEmpty then pure ([] : List Record)
    else transaction (loadProcedure config keys headers)
  | .merge now records headers merger =>
    if headers.has Headers.doNotStore || records.isEmpty ||
        headers.has Headers.memoryCacheOnly then
      pure (∅ : NameSet)
    else
      transaction (mergeProcedure config now
        (records.map (Record.stamped config.trackDates headers)) headers merger)
  | .removeKeys keys cascade => transaction (removeProcedure config keys cascade)
  | .removeMatching pattern => statement (Database.deleteMatching pattern.glob)
  | .removeTypes types =>
    if types.isEmpty then pure (0 : Nat)
    else transaction (deleteChunks Table.deleteTypes (Batch.chunks config.maxParameters types))
  | .clear => do
    let _ ← statement Database.deleteAll
    return ()
  | .dump => do
    let records ← query Database.selectAll
    return Batch.byKey records

/-- Runs statements on the tables of a tier: what they give and what they leave committed, or the
empty answer and a report. -/
def execute {α : Type} (store : Store) (operation : String) (fallback : α) (p : Procedure α) :
    Outcome Store α :=
  match p.exec ⟨store.database, none⟩ with
  | (.ok a, handle) => ⟨a, { store with database := handle.committed }, []⟩
  | (.error error, handle) =>
    ⟨fallback, { store with database := handle.committed }, [⟨operation, .storage error⟩]⟩

theorem realizes_load (config : StoreConfig) (keys : List Key) (headers : Headers) :
    Realizes (loadProcedure config keys headers) (loadIn config keys headers) := by
  refine (reads_select config.maxParameters keys).bind fun records => ?_
  dsimp only
  split
  · refine ((realizes_deleteKeys _ _).bind fun _ => .pure _).congr fun db => ?_
    show (Prod.snd <$> db.deleteKeys _ _ >>= fun _ => _) = _
    cases db.deleteKeys config.maxParameters (Batch.byKey records).keys <;> rfl
  · exact .pure _

theorem realizes_merge (config : StoreConfig) (now : Instant) (records : List Record)
    (headers : Headers) (merger : Merger) :
    Realizes (mergeProcedure config now records headers merger)
      (mergeIn config now records headers merger) := by
  unfold mergeProcedure mergeIn
  dsimp only
  split
  · refine ((realizes_upsert _ _ _).bind fun _ => .pure _).congr fun db => ?_
    rw [mergeFast]
    cases db.upsert _ _ _ <;> rfl
  · refine (reads_select config.maxParameters _).bind fun stored => ?_
    refine ((realizes_upsert _ _ _).bind fun _ => .pure _).congr fun db => ?_
    dsimp only
    cases db.upsert _ _ _ <;> rfl

theorem realizes_remove (config : StoreConfig) (keys : List Key) (cascade : Bool) :
    Realizes (removeProcedure config keys cascade) (fun db => do
      let targets ← if cascade then db.reachable config.maxParameters keys else pure keys
      db.deleteKeys config.maxParameters targets) := by
  cases cascade with
  | false => exact realizes_deleteKeys _ _
  | true => exact (reads_reachable config.maxParameters keys).bind fun _ => realizes_deleteKeys _ _

end Procedures

open Procedure in
/-- An operation that has nothing to do runs no statement. -/
theorem settles_unless {α : Type} (store : Store) (operation : String) (skip : Bool) (nothing : α)
    {p : Procedure α} {f : Database → Except StorageError (α × Database)} (h : Settles p f) :
    ∃ g, Settles (if skip then pure nothing else p) g ∧
      (if skip then ⟨nothing, store, []⟩ else store.run operation nothing f) =
        store.run operation nothing g := by
  cases skip with
  | true => exact ⟨fun db => .ok (nothing, db), settles_pure nothing, rfl⟩
  | false => exact ⟨f, h, rfl⟩

/-- What the statements of an operation do to the tables is what the operation does. -/
theorem answer_settles (store : Store) (request : Request) :
    ∃ f, (request.procedure store.config).Settles f ∧
      store.answer request = store.run request.name request.nothing f := by
  cases request with
  | load keys headers =>
    exact settles_unless store "load_records" _ ([] : List Record)
      (realizes_load store.config keys headers).settles_transaction
  | merge now records headers merger =>
    exact settles_unless store "merge_records" _ (∅ : NameSet)
      (realizes_merge store.config now _ headers merger).settles_transaction
  | removeKeys keys cascade =>
    exact ⟨_, (realizes_remove store.config keys cascade).settles_transaction, rfl⟩
  | removeMatching pattern => exact ⟨_, Procedure.settles_statement _, rfl⟩
  | removeTypes types =>
    exact settles_unless store "remove_by_types" _ (0 : Nat)
      (Procedure.realizes_deleteChunks _ _).settles_transaction
  | clear => exact ⟨_, (Procedure.settles_statement Database.deleteAll).map fun _ => (), rfl⟩
  | dump =>
    refine ⟨_, (Procedure.settles_statement _).map Batch.byKey, ?_⟩
    have hbody (db : Database) : (do
        let records ← db.selectAll
        return (Batch.byKey records, db) : Except StorageError (SortedMap Key Record × Database)) =
        ((·, db) <$> db.selectAll) >>= fun result => .ok (Batch.byKey result.1, result.2) := by
      cases db.selectAll <;> rfl
    exact congrArg (store.run "dump" (∅ : SortedMap Key Record)) (funext hbody)

/-! ### Rows that make an operation fail -/

section Failures

variable {refusal defect : Prop}

/-- An operation that detects defects of rows reports them, when no statement is refused. -/
theorem reports_run {α : Type} {P : α × Database → Prop} (store : Store) (operation : String)
    (fallback : α) (f : Database → Except StorageError (α × Database))
    (h : Detects refusal defect P (f store.database)) :
    (¬refusal → ¬(store.run operation fallback f).Refused) ∧
      (¬(store.run operation fallback f).Refused →
        ((store.run operation fallback f).reports ≠ [] ↔ defect)) := by
  rw [run]
  cases hresult : f store.database with
  | ok result =>
    rw [hresult] at h
    exact ⟨fun _ => Outcome.not_refused _ _, fun _ => by simp [h.1]⟩
  | error error =>
    rw [hresult] at h
    have herror : if error.isCorrupted then defect else refusal := h
    constructor
    · rintro hserved ⟨report, hreport, error', hsame, hother⟩
      rw [List.mem_singleton.1 hreport] at hsame
      cases hsame
      rw [hother] at herror
      exact hserved herror
    · intro hrefused
      have hcorrupted : error.isCorrupted = true := by
        by_contra hother
        exact hrefused ⟨_, List.mem_singleton_self _, error, rfl, Bool.eq_false_iff.2 hother⟩
      rw [hcorrupted] at herror
      simpa using herror

/-- Removing rows looks at no blob. -/
theorem deleteKeys_detects {db : Database} {limit : Nat} (keys : List Key) (hgood : ¬defect) :
    Detects (¬db.Serves limit) defect (fun _ => True) (db.deleteKeys limit keys) := by
  have hrows : db.Rows fun _ => True := fun _ _ _ _ => trivial
  refine .of_clean ((Database.deleteKeys_clean limit keys hrows).mono fun _ _ => trivial) hgood
    fun hserved => ?_
  obtain ⟨hsome, hlimit⟩ := not_not.1 hserved
  obtain ⟨table⟩ := db
  obtain ⟨table, rfl⟩ := Option.isSome_iff_exists.1 hsome
  exact ⟨_, Database.deleteKeys_eq table (.inl hlimit)⟩

theorem load_detects (config : StoreConfig) (keys : List Key) (headers : Headers)
    (db : Database) :
    Detects (¬db.Serves config.maxParameters) (∃ key ∈ keys, db.Unreadable key) (fun _ => True)
      (loadIn config keys headers db) := by
  refine (Database.select_detects db config.maxParameters keys).bind id fun records hgood _ => ?_
  dsimp only
  split
  · refine ((deleteKeys_detects _ hgood).map (Q := fun _ => True) fun _ _ => trivial).bind id ?_
    exact fun _ _ _ => ⟨hgood, trivial⟩
  · exact ⟨hgood, trivial⟩

theorem cascade_detects (config : StoreConfig) (keys : List Key) (db : Database) :
    Detects (¬db.Serves config.maxParameters) (∃ key, db.Reached keys key ∧ db.Unreadable key)
      (fun _ => True) (db.reachable config.maxParameters keys >>= fun targets =>
        db.deleteKeys config.maxParameters targets) :=
  (Database.reachable_detects db config.maxParameters keys).bind id fun _ hgood _ =>
    deleteKeys_detects _ hgood

end Failures

/-- **All or nothing.** An operation does what its statements do, and leaves no transaction open. If
it fails, it gives nothing, it makes one report under its name, and every row is as before, whatever
its statements had written. As long as no statement is refused, a load fails for a row of its keys
that cannot be read, and a removal that cascades for such a row of a key reached. -/
theorem answer_all_or_nothing (store : Store) (request : Request) :
    let outcome := store.answer request
    let procedure := request.procedure store.config
    outcome = store.execute request.name request.nothing procedure ∧
      (procedure.exec ⟨store.database, none⟩).2.pending = none ∧
      (outcome.reports = [] ∨ ∃ error,
        outcome = ⟨request.nothing, store, [⟨request.name, .storage error⟩]⟩) ∧
      (∀ keys headers, request = .load keys headers →
        headers.has Headers.memoryCacheOnly = false →
        (store.database.Serves store.config.maxParameters → ¬outcome.Refused) ∧
          (¬outcome.Refused →
            (outcome.reports ≠ [] ↔ ∃ key ∈ keys, store.database.Unreadable key))) ∧
      ∀ keys, request = .removeKeys keys true →
        (store.database.Serves store.config.maxParameters → ¬outcome.Refused) ∧
          (¬outcome.Refused →
            (outcome.reports ≠ [] ↔
              ∃ key, store.database.Reached keys key ∧ store.database.Unreadable key)) := by
  intro outcome procedure
  obtain ⟨f, hsettles, hanswer⟩ := answer_settles store request
  have hexec := hsettles store.database
  refine ⟨?_, ?_, ?_, ?_, ?_⟩
  · show store.answer request = _
    rw [hanswer, run, execute, hexec]
    cases f store.database <;> rfl
  · rw [hexec]
    cases f store.database <;> rfl
  · show (store.answer request).reports = [] ∨ ∃ error, store.answer request = _
    rw [hanswer, run]
    cases f store.database with
    | ok result => exact .inl rfl
    | error error => exact .inr ⟨error, rfl⟩
  · -- a load: unless a statement is refused, only a row of its keys can fail it
    rintro keys headers rfl hmemory
    by_cases hempty : keys = []
    · -- no key, no statement
      subst hempty
      have hload : store.load [] headers = ⟨[], store, []⟩ := by
        simp [load]
      show (_ → ¬(store.load [] headers).Refused) ∧
        (_ → ((store.load [] headers).reports ≠ [] ↔ _))
      rw [hload]
      exact ⟨fun _ => Outcome.not_refused _ _, fun _ => by simp⟩
    · have hload : store.load keys headers =
          store.run "load_records" [] (loadIn store.config keys headers) := by
        simp [load, hmemory, hempty]
      have hreports := reports_run store "load_records" [] (loadIn store.config keys headers)
        (load_detects store.config keys headers store.database)
      rw [not_not, ← hload] at hreports
      exact hreports
  · -- a removal that cascades, whose references are read before any row is deleted
    rintro keys rfl
    have hreports := reports_run store "remove_keys" (0 : Nat)
      (fun db => db.reachable store.config.maxParameters keys >>= fun targets =>
        db.deleteKeys store.config.maxParameters targets)
      (cascade_detects store.config keys store.database)
    rw [not_not] at hreports
    exact hreports

/-- A removal reaches a row that cannot be read. A merge in two chunks meets it in the second, with
the row of the first already written. -/
theorem answer_all_or_nothing_unreadable_row :
    let record (key field : String) (value : Value) : Record :=
      ⟨⟨key⟩, "T", .ofList [(field, value)], ∅, none⟩
    let rows := [(⟨0, none, none⟩ : WriteDates).row false (record "a" "next" (.reference ⟨"b"⟩)),
      ⟨⟨"b"⟩, "T", "not a record", 0, none, none⟩]
    let store : Store := ⟨{ maxParameters := 4 }, ⟨some ⟨rows, false⟩⟩⟩
    let batch := [record "c" "x" .null, record "b" "x" .null]
    let headers := Headers.none.flag Headers.errorsReplaceCachedValues
    let written := (mergeProcedure store.config ⟨0⟩ batch headers .overwrite).exec
      ⟨store.database, some store.database⟩
    (written.1.isOk = false ∧ written.2.tables.table.map Table.count = some 3) ∧
      (∃ error, store.answer (.merge ⟨0⟩ batch headers .overwrite) =
        ⟨(∅ : NameSet), store, [⟨"merge_records", .storage error⟩]⟩) ∧
      ∃ error, store.answer (.removeKeys [⟨"a"⟩] true) =
        ⟨(0 : Nat), store, [⟨"remove_keys", .storage error⟩]⟩ := by
  intro record rows store batch headers written
  have hmerge := (answer_all_or_nothing store (.merge ⟨0⟩ batch headers .overwrite)).2.2.1
  obtain ⟨-, -, hremove, -, hcascade⟩ :=
    answer_all_or_nothing store (.removeKeys [⟨"a"⟩] true)
  obtain ⟨hserves, hreports⟩ := hcascade [⟨"a"⟩] rfl
  have hread : ((store.database.read? ⟨"a"⟩).bind Except.toOption).map
      (fun r => r.referencedKeys.contains ⟨"b"⟩) = some true := by decide +kernel
  have hbad : (store.database.read? ⟨"b"⟩).map Except.isOk = some false := by decide +kernel
  refine ⟨by decide +kernel, hmerge.resolve_left ?_, hremove.resolve_left ?_⟩
  · have hreported :
        (store.answer (.merge ⟨0⟩ batch headers .overwrite)).reports.isEmpty = false := by
      decide +kernel
    exact fun hnone => by simp [hnone] at hreported
  · refine (hreports (hserves ⟨rfl, by decide⟩)).2 ⟨⟨"b"⟩, ?_, ?_⟩
    · obtain ⟨r, hr, hrefers⟩ := Option.map_eq_some_iff.1 hread
      obtain ⟨result, hresult, hok⟩ := Option.bind_eq_some_iff.1 hr
      cases result with
      | error error => cases hok
      | ok found =>
        cases hok
        exact .referred (.given (List.mem_singleton_self _)) hresult hrefers
    · obtain ⟨result, hresult, hfailed⟩ := Option.map_eq_some_iff.1 hbad
      cases result with
      | error error => exact ⟨error, hresult⟩
      | ok found => cases hfailed

end Store
end RecordCache
