import RecordCache.Proofs.Store.FastMerge
import RecordCache.Proofs.Store.Thinned

/-!
# The rows that a merge writes

A merge writes rows of one date, in an order that depends on the way in which it is done: in the
table the records are laid over the rows as they are listed; in memory they are merged first, and
those to be written go to the table in ascending order of key. A record that is left without fields
is not written.

* `Store.written` lists the keys of the rows that a merge writes, in order;
* `Store.merge_rows`: what a merge does to the table;
* `Store.mem_keys_of_written`: these are keys of the batch.
-/

namespace RecordCache

namespace Store

variable {s : Store} {now : Instant} {records : List Record} {headers : Headers} {merger : Merger}

/-- The records of a batch as they are merged. -/
def incoming (s : Store) (records : List Record) (headers : Headers) : List Record :=
  records.map (Record.stamped s.config.trackDates headers)

theorem keys_incoming (s : Store) (records : List Record) (headers : Headers) :
    (s.incoming records headers).map Record.key = records.map Record.key :=
  Record.keys_stamped _ _ _

/-- Whether a batch is laid over the rows in the table. -/
def laysOver (headers : Headers) (merger : Merger) : Bool :=
  merger.isFieldOverwrite && headers.has Headers.errorsReplaceCachedValues

/-- The keys of the rows that a merge writes, in the order in which it writes them: none if the call
is not to store anything, or fails. -/
def written (s : Store) (now : Instant) (records : List Record) (headers : Headers)
    (merger : Merger) : List Key :=
  if headers.has Headers.doNotStore || records.isEmpty || headers.has Headers.memoryCacheOnly ||
      !(s.merge now records headers merger).reports.isEmpty then []
  else if laysOver headers merger then (s.incoming records headers).map Record.key
  else
    match s.database.select s.config.maxParameters
      ((s.incoming records headers).map Record.key) with
    | .error _ => []
    | .ok found => ((s.incoming records headers).foldl (mergeOne headers merger)
        ⟨Batch.byKey found, ∅, ∅⟩).dirty.values.map Record.key

/-- Rows under some keys were written one after the other, all of one date, if there were any. -/
inductive Writes (s : Store) (date : Int64) : List Key → Store → Prop
  | nothing : Writes s date [] s
  | rows {mode : WriteMode} {table written : Table} {rows : List Row}
      (database : s.database = ⟨some table⟩) (dated : ∀ row ∈ rows, row.updatedDate = date)
      (upserted : rows.foldlM (Table.upsert mode) table = .ok written) :
      Writes s date (rows.map Row.key) { s with database := ⟨some written⟩ }

theorem writes_of_upsert {mode : WriteMode} {limit : Nat} {dates : WriteDates} {trackDates : Bool}
    {batch : List Record} {db : Database}
    (h : s.database.upsert mode limit (batch.map (dates.row trackDates)) = .ok db) :
    s.Writes dates.updated (batch.map Record.key) { s with database := db } := by
  rcases Database.foldlM_of_upsert h with ⟨hnone, rfl⟩ | ⟨table, last, hdatabase, hrows, rfl⟩
  · rw [List.map_eq_nil_iff.1 hnone]
    exact .nothing
  · rw [← keys_row dates trackDates batch]
    exact .rows hdatabase (date_of_row dates trackDates batch) hrows

/-- **What a merge does to the table.** -/
theorem merge_rows (s : Store) (now : Instant) (records : List Record) (headers : Headers)
    (merger : Merger) :
    s.Writes (WriteDates.ofHeaders now headers).updated (s.written now records headers merger)
      (s.merge now records headers merger).state := by
  unfold written
  by_cases hskip : (headers.has Headers.doNotStore || records.isEmpty ||
      headers.has Headers.memoryCacheOnly) = true
  · rw [merge_skipped now merger hskip, hskip, Bool.true_or, if_pos rfl]
    exact .nothing
  rw [Bool.not_eq_true] at hskip
  have hmerge : s.merge now records headers merger = s.run "merge_records" ∅
      (mergeIn s.config now (s.incoming records headers) headers merger) :=
    s.merge_stored now merger hskip
  rw [hmerge, hskip, Bool.false_or]
  unfold run
  cases hresult : mergeIn s.config now (s.incoming records headers) headers merger s.database with
  | error error => exact .nothing
  | ok result =>
    obtain ⟨paths, db⟩ := result
    simp only [List.isEmpty_nil, Bool.not_true, Bool.false_eq_true, if_false]
    unfold mergeIn at hresult
    change (if laysOver headers merger then _ else _) = _ at hresult
    split at hresult
    · -- laid over the rows, as they are listed
      rename_i hlays
      obtain ⟨laid, hupsert, hresult⟩ := ok_of_bind hresult
      cases hresult
      rw [if_pos hlays]
      exact writes_of_upsert hupsert
    · -- merged in memory, and written in the order of the keys
      rename_i hlays
      obtain ⟨found, hselect, hresult⟩ := ok_of_bind hresult
      obtain ⟨laid, hupsert, hresult⟩ := ok_of_bind hresult
      cases hresult
      rw [if_neg hlays, hselect]
      exact writes_of_upsert hupsert

/-- A merger that keeps the key of the stored record writes rows of the batch's keys only. -/
theorem mem_keys_of_written (hmerger : ∀ existing incoming,
      (merger.merge existing incoming headers).record.key = existing.key) {key : Key}
    (h : key ∈ s.written now records headers merger) : key ∈ records.map Record.key := by
  have hkeys := s.keys_incoming records headers
  unfold written at h
  split at h
  · cases h
  split at h
  · exact hkeys ▸ h
  split at h
  · cases h
  · rename_i found hselect
    have hkeyed := Progress.Keyed.foldl hmerger (.start (Batch.keyed_byKey found))
      fun r (hr : r ∈ s.incoming records headers) => List.mem_map_of_mem hr
    rw [hkeyed.dirty.mem_map_key, SortedMap.contains_iff] at h
    obtain ⟨r, hr⟩ := h
    exact hkeys ▸ hkeyed.named key r hr

/-- A key that is not written has a row afterwards only if it had one before. -/
theorem Writes.mem_rowKeys {s' : Store} {keys : List Key} {date : Int64} (h : s.Writes date keys s')
    {key : Key} (hkey : key ∈ s'.database.rowKeys) : key ∈ s.database.rowKeys ∨ key ∈ keys := by
  have hfold {mode : WriteMode} (rows : List Row) (table written : Table)
      (hrows : rows.foldlM (Table.upsert mode) table = .ok written) (hkey : key ∈ written.keys) :
      key ∈ table.keys ∨ key ∈ rows.map Row.key := by
    induction rows generalizing table with
    | nil =>
      cases hrows
      exact .inl hkey
    | cons row rows ih =>
      rw [List.foldlM_cons] at hrows
      obtain ⟨first, hfirst, hrows⟩ := ok_of_bind hrows
      rcases ih first hrows with hmem | hmem
      · rw [Table.keys_of_upsert hfirst] at hmem
        split at hmem
        · exact .inl hmem
        · simpa [or_assoc] using Or.inl hmem
      · exact .inr (List.mem_cons_of_mem _ hmem)
  cases h with
  | nothing => exact .inl hkey
  | rows database dated upserted =>
    rw [database]
    exact hfold _ _ _ upserted hkey

end Store
end RecordCache
