import RecordCache.Proofs.Changes
import RecordCache.Proofs.Database.Unreadable
import RecordCache.Proofs.Database.Upsert
import RecordCache.Proofs.Store.Merge

/-!
# Merges that went through

A call that reports nothing has run all its statements. What it did then follows from that alone,
whatever the table held before and however many parameters a statement may bind.

* `Store.run_committed`: the transaction of a call that reports nothing;
* `Store.Progress.foldl_batched`: rows are merged as contents are, and those that are written are
  the ones that are current;
* `Store.mergeRows_ok`, `mergeRows_committed`: what was read, what is told and what is found
  afterwards, and `Store.valueAt_kept`, `valueAt_written` for a single field;
* `Store.mergeFast_committed`, `Table.valueAt_foldlM`: rows that were laid over the stored ones
  leave every other field as it was.
-/

namespace RecordCache

namespace Database

variable {db db' : Database}

theorem valueAt_readable (db : Database) (key : Key) (field : String) :
    db.readable.valueAt key field =
      ((db.read? key).bind Except.toOption).bind fun r => r.fields.find? field := by
  rw [Contents.valueAt, find?_readable_eq]

theorem valueAt_congr {key : Key} (h : db'.read? key = db.read? key) (field : String) :
    db'.readable.valueAt key field = db.readable.valueAt key field := by
  rw [valueAt_readable, h, valueAt_readable]

/-- A row that was written, and can be read, holds the values as they are read back. -/
theorem valueAt_row {key : Key} {r : Record} {dates : WriteDates} {trackDates : Bool}
    (h : db.read? key = some (dates.row trackDates r).decode) (hgood : ¬db.Unreadable key)
    (field : String) :
    db.readable.valueAt key field = (r.fields.find? field).map Value.reread := by
  rw [WriteDates.decode_row] at h
  split at h
  · rw [valueAt_readable, h]
    exact SortedMap.find?_mapValues _ _ _
  · exact absurd ⟨_, h⟩ hgood

/-- A statement that went through has written its rows one after the other. -/
theorem foldlM_of_upsertChunk {mode : WriteMode} {table : Table} {rows : List Row}
    (h : upsertChunk mode ⟨some table⟩ rows = .ok db') : ∃ written,
      rows.foldlM (Table.upsert mode) table = .ok written ∧ db' = ⟨some written⟩ := by
  simp only [upsertChunk, requireTable, Bind.bind, Except.bind] at h
  split at h
  · cases h
  · split at h
    · cases h
    · rename_i written hwritten
      cases h
      exact ⟨written, hwritten, rfl⟩

/-- By induction on the statements. -/
theorem foldlM_of_upsertChunks {mode : WriteMode} {table : Table} {chunks : List (List Row)}
    (h : chunks.foldlM (upsertChunk mode) ⟨some table⟩ = .ok db') : ∃ written,
      chunks.flatten.foldlM (Table.upsert mode) table = .ok written ∧ db' = ⟨some written⟩ := by
  induction chunks generalizing table with
  | nil =>
    cases h
    exact ⟨table, rfl, rfl⟩
  | cons chunk chunks ih =>
    rw [List.foldlM_cons] at h
    obtain ⟨first, hfirst, hrest⟩ := ok_of_bind h
    obtain ⟨written, hwritten, rfl⟩ := foldlM_of_upsertChunk hfirst
    obtain ⟨last, hlast, hdb⟩ := ih hrest
    refine ⟨last, ?_, hdb⟩
    rw [List.flatten_cons, List.foldlM_append, hwritten]
    exact hlast

/-- Rows were written one after the other, unless there were none. -/
theorem foldlM_of_upsert {mode : WriteMode} {limit : Nat} {rows : List Row}
    (h : db.upsert mode limit rows = .ok db') :
    rows = [] ∧ db' = db ∨ ∃ table written, db = ⟨some table⟩ ∧
      rows.foldlM (Table.upsert mode) table = .ok written ∧ db' = ⟨some written⟩ := by
  obtain ⟨_ | table⟩ := db
  · cases rows with
    | nil =>
      rw [upsert, Batch.chunks] at h
      cases h
      exact .inl ⟨rfl, rfl⟩
    | cons row rows =>
      rw [upsert, Batch.chunks] at h
      cases h
  · obtain ⟨written, hwritten, hdb⟩ := foldlM_of_upsertChunks h
    rw [Batch.flatten_chunks] at hwritten
    exact .inr ⟨table, written, rfl, hwritten, hdb⟩

end Database

namespace Store

variable {headers : Headers} {merger : Merger} {records : List Record} {config : StoreConfig}
  {dates : WriteDates} {db db' : Database} {paths : NameSet}

/-- A call that reports nothing has run its transaction. -/
theorem run_committed {α : Type} {s : Store} {operation : String} {fallback : α}
    {transaction : Database → Except StorageError (α × Database)}
    (h : (s.run operation fallback transaction).reports = []) :
    ∃ value db, transaction s.database = .ok (value, db) ∧
      s.run operation fallback transaction = ⟨value, { s with database := db }, []⟩ := by
  rw [run] at h ⊢
  cases hresult : transaction s.database with
  | ok result => exact ⟨result.1, result.2, rfl, rfl⟩
  | error error =>
    rw [hresult] at h
    cases h

/-! ### Rows that are read first -/

/-- The current records of a batch, with what was told so far. -/
def Progress.result (progress : Progress) : NameSet × Contents :=
  (progress.changed, progress.current)

/-- What is current is what is to be written, and for other keys what was stored. -/
def Progress.Covers (stored : Contents) (progress : Progress) : Prop :=
  ∀ key, progress.current.find? key = (progress.dirty.find? key).or (stored.find? key)

/-- One record of a batch. -/
theorem Progress.mergeOne_merging {stored : Contents} {progress : Progress} (incoming : Record)
    (hcovers : progress.Covers stored) :
    Contents.Merging headers merger progress.result incoming
        (mergeOne headers merger progress incoming).result ∧
      (mergeOne headers merger progress incoming).Covers stored := by
  have hput (r : Record) (key : Key) : (progress.current.insert r.key r).find? key =
      ((progress.dirty.insert r.key r).find? key).or (stored.find? key) := by
    rw [SortedMap.find?_insert_eq, SortedMap.find?_insert_eq]
    split
    · rfl
    · exact hcovers key
  have hstep : Contents.Merging headers merger progress.result incoming
    (Contents.mergeOne headers merger progress.result incoming) := .put
  rw [mergeOne]
  cases hfind : progress.current.find? incoming.key with
  | none =>
    rw [Contents.mergeOne, show progress.result.2.find? incoming.key = _ from hfind] at hstep
    exact ⟨hstep, hput incoming⟩
  | some existing =>
    dsimp only
    split
    · rename_i hempty
      have hskip : Contents.Merging headers merger progress.result incoming _ :=
        .skip hfind hempty
      rw [Contents.mergeOne, show progress.result.2.find? incoming.key = _ from hfind] at hskip
      exact ⟨hskip, hcovers⟩
    · rw [Contents.mergeOne, show progress.result.2.find? incoming.key = _ from hfind] at hstep
      exact ⟨hstep, hput _⟩

/-- By induction all of them. -/
theorem Progress.foldl_batched {stored : Contents} (progress : Progress) (records : List Record)
    (hcovers : progress.Covers stored) :
    Contents.Batched headers merger records progress.result
        (records.foldl (mergeOne headers merger) progress).result ∧
      (records.foldl (mergeOne headers merger) progress).Covers stored := by
  induction records generalizing progress with
  | nil => exact ⟨.nil _, hcovers⟩
  | cons incoming records ih =>
    obtain ⟨hfirst, hnext⟩ := mergeOne_merging incoming hcovers
    obtain ⟨hrest, hlast⟩ := ih _ hnext
    exact ⟨.cons hfirst hrest, hlast⟩

/-- The steps of a batch that went through: what was read, and what is found afterwards. -/
theorem mergeRows_ok (hmerger : ∀ existing incoming,
      (merger.merge existing incoming headers).record.key = existing.key)
    (h : mergeRows config dates records headers merger db = .ok (paths, db')) :
    (∀ r ∈ records, ¬db.Unreadable r.key) ∧ ∃ stored : Contents,
      (∀ key, stored.find? key =
        if key ∈ records.map Record.key then db.readable.find? key else none) ∧
      let progress := records.foldl (mergeOne headers merger) ⟨stored, ∅, ∅⟩
      progress.changed = paths ∧ progress.Keyed (records.map Record.key) ∧
      ∀ key, db'.read? key =
        ((progress.dirty.find? key).map fun r => (dates.row config.trackDates r).decode).or
          (db.read? key) := by
  rw [mergeRows] at h
  obtain ⟨found, hselect, h⟩ := ok_of_bind h
  have hdetects := db.select_detects config.maxParameters (records.map Record.key)
  rw [hselect] at hdetects
  obtain ⟨hgood, hfound⟩ := hdetects
  have hread : ∀ r ∈ records, ¬db.Unreadable r.key := fun r hr hbad =>
    hgood ⟨r.key, List.mem_map_of_mem hr, hbad⟩
  have hkeyed : (records.foldl (mergeOne headers merger) ⟨Batch.byKey found, ∅, ∅⟩).Keyed
      (records.map Record.key) :=
    Progress.Keyed.foldl hmerger (.start (Batch.keyed_byKey found)) fun r hr =>
      List.mem_map_of_mem hr
  refine ⟨hread, Batch.byKey found, hfound.find?_byKey, ?_⟩
  dsimp only at h
  generalize records.foldl (mergeOne headers merger) ⟨Batch.byKey found, ∅, ∅⟩ = progress at *
  obtain ⟨written, hupsert, h⟩ := ok_of_bind h
  cases h
  refine ⟨rfl, hkeyed, fun key => ?_⟩
  have hwritten := hkeyed.dirty.find?_rows dates config.trackDates key
  -- either there was nothing to write, or the rows written are found in the table
  rcases Database.foldlM_of_upsert hupsert with ⟨hnone, rfl⟩ | ⟨table, last, rfl, hrows, rfl⟩
  · rw [hnone] at hwritten
    rw [Option.map_eq_none_iff.1 hwritten.symm]
    rfl
  · have hmode : (WriteMode.mk false config.trackDates).overlay = false := rfl
    obtain ⟨last', hlast', -, hfind⟩ := Table.foldlM_upsert_replace hmode
      (progress.dirty.values.map (dates.row config.trackDates)) table
    rw [hrows] at hlast'
    cases hlast'
    refine (hfind key).trans ?_
    rw [hwritten, Option.map_map]
    rfl

/-- **Merging with rows.** The rows of the batch could be read, and were merged as contents are;
afterwards a record that was written is found in place of the one found before. -/
theorem mergeRows_committed (hmerger : ∀ existing incoming,
      (merger.merge existing incoming headers).record.key = existing.key)
    (h : mergeRows config dates records headers merger db = .ok (paths, db')) :
    (∀ r ∈ records, ¬db.Unreadable r.key) ∧ ∃ (stored : Contents) (progress : Progress),
      (∀ key, stored.find? key =
        if key ∈ records.map Record.key then db.readable.find? key else none) ∧
      Contents.Batched headers merger records (∅, stored) (paths, progress.current) ∧
      progress.Covers stored ∧ progress.Keyed (records.map Record.key) ∧
      ∀ key, db'.read? key =
        ((progress.dirty.find? key).map fun r => (dates.row config.trackDates r).decode).or
          (db.read? key) := by
  obtain ⟨hread, stored, hstored, rfl, hkeyed, hlast⟩ := mergeRows_ok hmerger h
  have hcovers : Progress.Covers stored ⟨stored, ∅, ∅⟩ := fun _ => rfl
  obtain ⟨hbatched, hcovered⟩ := Progress.foldl_batched ⟨stored, ∅, ∅⟩ records hcovers
  exact ⟨hread, stored, _, hstored, hbatched, hcovered, hkeyed, hlast⟩

section Rows

variable {stored : Contents} {progress : Progress} {key : Key} (hcovers : progress.Covers stored)
  (hread : ∀ key, db'.read? key =
    ((progress.dirty.find? key).map fun r => (dates.row config.trackDates r).decode).or
      (db.read? key))

include hcovers hread

/-- A record that was not to be written is as it was. -/
theorem valueAt_kept (hdirty : progress.dirty.find? key = none) (field : String) :
    db'.readable.valueAt key field = db.readable.valueAt key field ∧
      Contents.valueAt progress.current key field = stored.valueAt key field := by
  have hrow : db'.read? key = db.read? key := by
    rw [hread, hdirty]
    rfl
  have hcurrent : progress.current.find? key = stored.find? key := by
    rw [hcovers, hdirty]
    rfl
  exact ⟨Database.valueAt_congr hrow field, Contents.valueAt_congr hcurrent field⟩

/-- A record that was written holds what is current, as it is read back. -/
theorem valueAt_written {r : Record} (hdirty : progress.dirty.find? key = some r)
    (hgood : ¬db'.Unreadable key) (field : String) :
    db'.readable.valueAt key field =
      (Contents.valueAt progress.current key field).map Value.reread := by
  have hrow : db'.read? key = some (dates.row config.trackDates r).decode := by
    rw [hread, hdirty]
    rfl
  have hcurrent : progress.current.find? key = some r := by
    rw [hcovers, hdirty]
    rfl
  rw [Database.valueAt_row hrow hgood, Contents.valueAt, hcurrent]
  rfl

end Rows

end Store

/-! ### Rows laid over the stored ones -/

/-- A row laid over that of its key leaves a field that it does not have as it was, unless this held
a floating-point number. -/
theorem Table.valueAt_upsert {trackDates : Bool} {table written : Table} {row : Row}
    (h : upsert ⟨true, trackDates⟩ table row = .ok written) {key : Key} {field : String}
    (hrow : row.key = key → ∀ top, row.decode = .ok top → top.fields.find? field = none)
    (hexact : row.key = key → ∀ old,
      (Database.mk (some table)).readable.valueAt key field = some old → old.HasShape .exact) :
    (Database.mk (some written)).readable.valueAt key field =
      (Database.mk (some table)).readable.valueAt key field := by
  obtain ⟨updated, habsorbed, hkey, hreplaces⟩ := absorb_of_upsert h
  have hfind (key : Key) : Database.read? ⟨some written⟩ key =
      if key = row.key then some updated.decode else Database.read? ⟨some table⟩ key := by
    show (written.find? key).map Row.decode = _
    rw [find?, hreplaces.find, hkey]
    split <;> rfl
  by_cases hsame : key = row.key
  · replace hexact := hexact hsame.symm
    rw [Database.valueAt_readable] at hexact
    rw [Database.valueAt_readable, Database.valueAt_readable, hfind, if_pos hsame]
    have hread : Database.read? ⟨some table⟩ key = (table.find? row.key).map Row.decode :=
      hsame ▸ rfl
    rw [hread] at hexact ⊢
    -- a new row shows only its own fields; one laid over another, those of the other read back
    cases hstored : table.find? row.key with
    | none =>
      rw [hstored] at habsorbed
      cases habsorbed
      cases hdecode : row.decode with
      | error error => rfl
      | ok top => exact hrow hsame.symm top hdecode
    | some stored =>
      rw [hstored] at habsorbed hexact
      obtain ⟨old, top, hold, htop, hupdated⟩ := decode_of_updateRow habsorbed
      have hnone := hrow hsame.symm top htop
      rw [Option.map_some, hold] at hexact ⊢
      rw [hupdated]
      have hfields : (old.overlay top).reread.fields.find? field =
          (old.fields.find? field).map Value.reread := by
        show ((old.fields.overlay top.fields).mapValues Value.reread).find? field = _
        rw [SortedMap.find?_mapValues, SortedMap.find?_overlay, hnone, Option.none_or]
      exact hfields.trans (Value.HasShape.map_reread hexact)
  · exact Database.valueAt_congr ((hfind key).trans (if_neg hsame)) field

/-- By induction on the rows. -/
theorem Table.valueAt_foldlM {trackDates : Bool} {table written : Table} {rows : List Row}
    (h : rows.foldlM (upsert ⟨true, trackDates⟩) table = .ok written) {key : Key} {field : String}
    (hrows : ∀ row ∈ rows, row.key = key →
      ∀ top, row.decode = .ok top → top.fields.find? field = none)
    (hexact : ∀ row ∈ rows, row.key = key → ∀ old,
      (Database.mk (some table)).readable.valueAt key field = some old → old.HasShape .exact) :
    (Database.mk (some written)).readable.valueAt key field =
      (Database.mk (some table)).readable.valueAt key field := by
  induction rows generalizing table with
  | nil =>
    cases h
    rfl
  | cons row rows ih =>
    obtain ⟨hrow, hrest⟩ := List.forall_mem_cons.1 hrows
    obtain ⟨hrowExact, hrestExact⟩ := List.forall_mem_cons.1 hexact
    rw [List.foldlM_cons] at h
    obtain ⟨first, hfirst, h⟩ := ok_of_bind h
    have hsame := valueAt_upsert hfirst hrow hrowExact
    exact (ih h hrest (hsame ▸ hrestExact)).trans hsame

namespace Store

variable {records : List Record} {config : StoreConfig} {dates : WriteDates}
  {db db' : Database} {paths : NameSet}

/-- **Merging in the table.** Every field of the batch is told, and all others are as they were. -/
theorem mergeFast_committed (h : mergeFast config dates records db = .ok (paths, db')) :
    (∀ path, paths.contains path = true ↔ ∃ r ∈ records, r.fieldPaths.contains path = true) ∧
      ∀ key field, (∀ r ∈ records, r.key = key →
          ∀ old, db.readable.valueAt key field = some old → old.HasShape .exact) →
        db'.readable.valueAt key field ≠ db.readable.valueAt key field →
          ∃ r ∈ records, r.key = key ∧ r.fields.contains field = true := by
  rw [mergeFast] at h
  obtain ⟨written, hupsert, h⟩ := ok_of_bind h
  cases h
  constructor
  · intro path
    rw [SortedSet.contains_ofList, decide_eq_true_iff, List.mem_flatMap]
    simp only [SortedSet.mem_toList]
  · intro key field hexact hne
    by_contra hother
    refine hne ?_
    rcases Database.foldlM_of_upsert hupsert with ⟨-, rfl⟩ | ⟨table, last, rfl, hrows, rfl⟩
    · rfl
    · refine Table.valueAt_foldlM hrows (List.forall_mem_map.2 fun r hr hkey top htop => ?_)
        (List.forall_mem_map.2 hexact)
      rw [WriteDates.decode_row] at htop
      split at htop
      · cases htop
        show (r.fields.mapValues Value.reread).find? field = none
        have hnone : r.fields.find? field = none := by
          by_contra hfield
          exact hother ⟨r, hr, hkey, Option.isSome_iff_ne_none.2 hfield⟩
        rw [SortedMap.find?_mapValues, hnone]
        rfl
      · cases htop

end Store
end RecordCache
