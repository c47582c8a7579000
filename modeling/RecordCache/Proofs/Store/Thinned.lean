import RecordCache.Proofs.Database.Reach
import RecordCache.Proofs.Store.Committed

/-!
# Calls that take rows away

Apart from a merge, a call only ever takes rows away. Those that are left are as they were, and in
the order in which they were.

* `Database.keeping` is the table with the rows that pass a test;
* `Database.deleteKeys_ok`, `deleteMatching_ok` and their like: the rows left by a statement that
  went through;
* `Store.Thinned` says that rows were taken away and nothing else, and `thinned_load`,
  `thinned_removeKeys` and their like say it of the calls;
* `Store.removeKeys_gone`, `removeMatching_keeping`, `clear_gone`: what is left by a removal that
  reports nothing.
-/

namespace RecordCache

namespace Database

variable {db db' : Database} {removed : Nat}

/-- The table with the rows that pass. -/
def keeping (keep : Row → Bool) (db : Database) : Database :=
  ⟨db.table.map fun table => { table with rows := table.rows.filter keep }⟩

theorem keeping_true (db : Database) : db.keeping (fun _ => true) = db := by
  obtain ⟨_ | table⟩ := db
  · rfl
  · simp [keeping]

theorem keeping_keeping (p q : Row → Bool) (db : Database) :
    (db.keeping p).keeping q = db.keeping fun row => q row && p row := by
  obtain ⟨_ | table⟩ := db
  · rfl
  · simp [keeping, List.filter_filter]

theorem mem_rowKeys_keeping {keep : Row → Bool} {key : Key}
    (h : key ∈ (db.keeping keep).rowKeys) : key ∈ db.rowKeys := by
  obtain ⟨_ | table⟩ := db
  · exact h
  · obtain ⟨row, hrow, hkey⟩ := List.mem_map.1 h
    exact List.mem_map.2 ⟨row, (List.mem_filter.1 hrow).1, hkey⟩

/-- A key that the test looks at is gone if it does not pass. -/
theorem mem_rowKeys_keeping_iff (keep : Key → Bool) {key : Key} :
    key ∈ (db.keeping fun row => keep row.key).rowKeys ↔ key ∈ db.rowKeys ∧ keep key = true := by
  obtain ⟨_ | table⟩ := db
  · simp [keeping, rowKeys]
  · simp only [keeping, rowKeys, Table.keys, Option.map_some, Option.getD_some, List.mem_map,
      List.mem_filter]
    constructor
    · rintro ⟨row, ⟨hrow, hkeep⟩, rfl⟩
      exact ⟨⟨row, hrow, rfl⟩, hkeep⟩
    · rintro ⟨⟨row, hrow, rfl⟩, hkeep⟩
      exact ⟨row, ⟨hrow, hkeep⟩, rfl⟩

/-! ### Statements that went through -/

theorem delete_ok {statement : Table → Nat × Table} (h : db.delete statement = .ok (removed, db')) :
    ∃ table, db.table = some table ∧ db' = ⟨some (statement table).2⟩ := by
  obtain ⟨_ | table⟩ := db
  · cases h
  · cases h
    exact ⟨table, rfl, rfl⟩

theorem deleteWhere_ok {doomed : Row → Bool}
    (h : db.delete (Table.deleteWhere doomed) = .ok (removed, db')) :
    db' = db.keeping fun row => !doomed row := by
  obtain ⟨table, htable, rfl⟩ := delete_ok h
  simp [keeping, htable, Table.deleteWhere]

/-- By induction on the chunks, each of which takes its rows away from those left before. -/
theorem deleteChunks_ok {α : Type} [BEq α] (f : Row → α) {chunks : List (List α)}
    (h : deleteChunks (fun chunk => Table.deleteWhere fun row => chunk.contains (f row)) chunks db =
      .ok (removed, db')) :
    db' = db.keeping fun row => !chunks.flatten.contains (f row) := by
  induction chunks generalizing db removed with
  | nil =>
    cases h
    simp [keeping_true]
  | cons chunk chunks ih =>
    obtain ⟨-, -, h⟩ := ok_of_bind h
    obtain ⟨⟨count, first⟩, hfirst, h⟩ := ok_of_bind h
    obtain ⟨⟨more, last⟩, hlast, h⟩ := ok_of_bind h
    cases h
    rw [ih hlast, deleteWhere_ok hfirst, keeping_keeping]
    congr 1
    funext row
    simp [Bool.and_comm]

theorem deleteKeys_ok {limit : Nat} {keys : List Key}
    (h : db.deleteKeys limit keys = .ok (removed, db')) :
    db' = db.keeping fun row => !keys.contains row.key := by
  have hchunks := deleteChunks_ok Row.key h
  simpa [Batch.flatten_chunks, Batch.mem_distinct, Bool.eq_iff_iff] using hchunks

theorem deleteTypes_ok {limit : Nat} {types : List String}
    (h : db.deleteTypes limit types = .ok (removed, db')) :
    db' = db.keeping fun row => !types.contains row.typeName := by
  have hchunks := deleteChunks_ok Row.typeName h
  simpa [Batch.flatten_chunks] using hchunks

theorem deleteMatching_ok {glob : String} (h : db.deleteMatching glob = .ok (removed, db')) :
    db' = db.keeping fun row => !Glob.selects glob row.key := by
  obtain ⟨table, -, h⟩ := ok_of_bind h
  split at h
  · cases h
  · exact deleteWhere_ok h

theorem deleteAll_ok (h : db.deleteAll = .ok (removed, db')) :
    db' = db.keeping fun _ => false := deleteWhere_ok h

/-- The rows written longest ago are found by their keys. -/
theorem deleteOldest_ok {n : Nat} (h : db.deleteOldest n = .ok (removed, db')) :
    ∃ table, db.table = some table ∧ db' = db.keeping fun row =>
      !((table.oldestFirst.take n).map Row.key).contains row.key := by
  obtain ⟨table, htable, rfl⟩ := delete_ok h
  refine ⟨table, htable, ?_⟩
  simp [keeping, htable, Table.deleteOldest, Table.deleteKeys, Table.deleteWhere]

/-- The keys given are among those found from them: following references only adds keys. -/
theorem subset_of_reachable {limit : Nat} {keys found : List Key}
    (h : db.reachable limit keys = .ok found) : keys ⊆ found := by
  have hreach (fuel : Nat) : ∀ (visited result : SortedSet Key) (frontier : List Key),
      db.reach limit fuel visited frontier = .ok result →
      ∀ key, visited.contains key = true → result.contains key = true := by
    induction fuel with
    | zero =>
      intro visited result frontier h key hkey
      cases h
      exact hkey
    | succ fuel ih =>
      intro visited result frontier h key hkey
      rw [reach] at h
      split at h
      · cases h
        exact hkey
      · obtain ⟨records, -, h⟩ := ok_of_bind h
        exact ih _ _ _ h key ((mem_visitReferences visited records key).1.2 (.inl hkey))
  obtain ⟨visited, hvisited, h⟩ := ok_of_bind h
  cases h
  intro key hkey
  refine SortedSet.mem_toList.2 (hreach _ _ _ _ hvisited key ?_)
  simpa [SortedSet.contains_ofList] using hkey

end Database

namespace Store

/-- Rows were taken away, and nothing else was done. -/
def Thinned (s s' : Store) : Prop :=
  ∃ keep : Row → Bool, s' = { s with database := s.database.keeping keep }

theorem Thinned.refl (s : Store) : s.Thinned s :=
  ⟨fun _ => true, by rw [Database.keeping_true]⟩

theorem Thinned.mem_rowKeys {s s' : Store} (h : s.Thinned s') {key : Key}
    (hkey : key ∈ s'.database.rowKeys) : key ∈ s.database.rowKeys := by
  obtain ⟨keep, rfl⟩ := h
  exact Database.mem_rowKeys_keeping hkey

/-- A call whose transaction does nothing else. One that fails does nothing. -/
theorem thinned_run {α : Type} (s : Store) (operation : String) (fallback : α)
    {transaction : Database → Except StorageError (α × Database)}
    (h : ∀ value db, transaction s.database = .ok (value, db) →
      ∃ keep, db = s.database.keeping keep) :
    s.Thinned (s.run operation fallback transaction).state := by
  unfold run
  split
  · rename_i value db hresult
    obtain ⟨keep, rfl⟩ := h value db hresult
    exact ⟨keep, rfl⟩
  · exact .refl s

/-- Only a load that evicts takes rows away. -/
theorem thinned_load (s : Store) (keys : List Key) (headers : Headers) :
    s.Thinned (s.load keys headers).state := by
  unfold load
  split
  · exact .refl s
  · refine s.thinned_run _ _ fun value db hload => ?_
    obtain ⟨records, -, hload⟩ := ok_of_bind hload
    dsimp only at hload
    split at hload
    · obtain ⟨left, hleft, hload⟩ := ok_of_bind hload
      cases hload
      -- what was found is deleted, and a deletion that fails makes the load fail
      cases hdelete : s.database.deleteKeys s.config.maxParameters (Batch.byKey records).keys with
      | error error =>
        rw [hdelete] at hleft
        cases hleft
      | ok deleted =>
        rw [hdelete] at hleft
        cases hleft
        exact ⟨_, Database.deleteKeys_ok hdelete⟩
    · cases hload
      exact ⟨fun _ => true, (Database.keeping_true _).symm⟩

theorem thinned_dump (s : Store) : s.Thinned s.dump.state := by
  refine s.thinned_run _ _ fun value db hdump => ⟨fun _ => true, ?_⟩
  obtain ⟨records, -, hdump⟩ := ok_of_bind hdump
  cases hdump
  exact (Database.keeping_true _).symm

theorem thinned_removeTypes (s : Store) (types : List String) :
    s.Thinned (s.removeTypes types).state := by
  unfold removeTypes
  split
  · exact .refl s
  · exact s.thinned_run _ _ fun value db hdelete => ⟨_, Database.deleteTypes_ok hdelete⟩

theorem thinned_trim (s : Store) (maxSize : Nat) (factor : Binary64) (sizes : FileSizes) :
    s.Thinned (s.trim maxSize factor sizes).state := by
  refine s.thinned_run _ _ fun value db htrim => ?_
  unfold trimIn at htrim
  split at htrim
  · cases htrim
    exact ⟨fun _ => true, (Database.keeping_true _).symm⟩
  · obtain ⟨count, -, htrim⟩ := ok_of_bind htrim
    obtain ⟨deleted, hdelete, htrim⟩ := ok_of_bind htrim
    cases htrim
    obtain ⟨table, -, hleft⟩ := Database.deleteOldest_ok hdelete
    exact ⟨_, hleft⟩

/-! ### Removals that report nothing -/

/-- A removal by keys takes away the rows of these at least; one that cascades may take more. -/
theorem removeKeys_ok {s : Store} {keys : List Key} {cascade : Bool} {removed : Nat}
    {db : Database}
    (h : (do
      let targets ← if cascade then s.database.reachable s.config.maxParameters keys else pure keys
      s.database.deleteKeys s.config.maxParameters targets) = .ok (removed, db)) :
    ∃ targets : List Key, keys ⊆ targets ∧
      db = s.database.keeping fun row => !targets.contains row.key := by
  dsimp only at h
  split at h
  · obtain ⟨targets, htargets, hdelete⟩ := ok_of_bind h
    exact ⟨targets, Database.subset_of_reachable htargets, Database.deleteKeys_ok hdelete⟩
  · exact ⟨keys, List.Subset.refl keys, Database.deleteKeys_ok h⟩

theorem thinned_removeKeys (s : Store) (keys : List Key) (cascade : Bool) :
    s.Thinned (s.removeKeys keys cascade).state := by
  refine s.thinned_run _ _ fun removed db hdelete => ?_
  obtain ⟨targets, -, hleft⟩ := removeKeys_ok hdelete
  exact ⟨_, hleft⟩

theorem removeKeys_gone {s : Store} {keys : List Key} {cascade : Bool}
    (h : (s.removeKeys keys cascade).reports = []) {key : Key} (hkey : key ∈ keys) :
    key ∉ (s.removeKeys keys cascade).state.database.rowKeys := by
  obtain ⟨removed, db, hrun, houtcome⟩ := run_committed h
  obtain ⟨targets, hsubset, rfl⟩ := removeKeys_ok hrun
  have hstate : (s.removeKeys keys cascade).state.database =
      s.database.keeping fun row => !targets.contains row.key :=
    congrArg (fun outcome => outcome.state.database) houtcome
  rw [hstate, Database.mem_rowKeys_keeping_iff fun key => !targets.contains key]
  simp [hsubset hkey]

theorem thinned_removeMatching (s : Store) (pattern : Pattern) :
    s.Thinned (s.removeMatching pattern).state :=
  s.thinned_run _ _ fun _ _ hdelete => ⟨_, Database.deleteMatching_ok hdelete⟩

/-- A removal by a pattern takes away the rows that the glob selects. -/
theorem removeMatching_keeping {s : Store} {pattern : Pattern}
    (h : (s.removeMatching pattern).reports = []) :
    (s.removeMatching pattern).state.database =
      s.database.keeping fun row => !Glob.selects pattern.glob row.key := by
  obtain ⟨removed, db, hrun, houtcome⟩ := run_committed h
  rw [← Database.deleteMatching_ok hrun]
  exact congrArg (fun outcome => outcome.state.database) houtcome

theorem clear_ok {s : Store} {db : Database}
    (h : (do
      let (_, db) ← s.database.deleteAll
      return ((), db)) = Except.ok ((), db)) : db = s.database.keeping fun _ => false := by
  obtain ⟨deleted, hdelete, h⟩ := ok_of_bind h
  cases h
  exact Database.deleteAll_ok hdelete

theorem thinned_clear (s : Store) : s.Thinned s.clear.state :=
  s.thinned_run _ _ fun _ _ hclear => ⟨_, clear_ok hclear⟩

theorem clear_gone {s : Store} (h : s.clear.reports = []) (key : Key) :
    key ∉ s.clear.state.database.rowKeys := by
  obtain ⟨⟨⟩, db, hrun, houtcome⟩ := run_committed h
  have hstate : s.clear.state.database = s.database.keeping fun _ => false := by
    rw [← clear_ok hrun]
    exact congrArg (fun outcome => outcome.state.database) houtcome
  rw [hstate, Database.mem_rowKeys_keeping_iff fun _ => false]
  simp

end Store
end RecordCache
