import RecordCache.Proofs.Merge
import RecordCache.Proofs.Store.Load

/-!
# Merging records with their rows

A batch is merged with the records read before, and every record that is written replaces a row.
What is found under a key afterwards is the record written under it, or what was found before.

* `Store.merge_skipped`, `merge_stored`: whether a batch is stored at all;
* `Store.Progress.Keyed` is kept by each record of a batch;
* `Store.mergeRows_eq`: what a batch changes, and what is read afterwards.
-/

namespace RecordCache

/-- The last row written for a key is that of the record under it. -/
theorem Batch.Keyed.find?_rows {records : SortedMap Key Record} (h : Keyed records)
    (dates : WriteDates) (trackDates : Bool) (key : Key) :
    ((records.values.map (dates.row trackDates)).reverse.find? fun row => row.key = key) =
      (records.find? key).map (dates.row trackDates) := by
  have hkey : (fun row : Row => decide (row.key = key)) ∘ dates.row trackDates =
      fun r => decide (r.key = key) := rfl
  rw [← List.map_reverse, List.find?_map, hkey, h.find?_values]

namespace Store

variable {headers : Headers} {merger : Merger} {keys : List Key}

/-- A batch that is not stored changes nothing. -/
theorem merge_skipped {s : Store} {records : List Record} (now : Instant) (merger : Merger)
    (hskip : (headers.has Headers.doNotStore || records.isEmpty ||
      headers.has Headers.memoryCacheOnly) = true) :
    s.merge now records headers merger = ⟨∅, s, []⟩ := by
  rw [merge, if_pos hskip]

/-- Any other batch is merged in a transaction. -/
theorem merge_stored (s : Store) {records : List Record} (now : Instant) (merger : Merger)
    (hskip : (headers.has Headers.doNotStore || records.isEmpty ||
      headers.has Headers.memoryCacheOnly) = false) :
    s.merge now records headers merger = s.run "merge_records" ∅ (mergeIn s.config now
      (records.map (Record.stamped s.config.trackDates headers)) headers merger) := by
  rw [merge, hskip]
  rfl

theorem merge_eq_run {s : Store} {records : List Record} (now : Instant) (merger : Merger)
    (hrecords : records ≠ []) (hstore : headers.has Headers.doNotStore = false)
    (hmemory : headers.has Headers.memoryCacheOnly = false) :
    s.merge now records headers merger = s.run "merge_records" ∅ (mergeIn s.config now
      (records.map (Record.stamped s.config.trackDates headers)) headers merger) :=
  s.merge_stored now merger (by simp [hstore, hmemory, hrecords])

/-- The records merged so far and those to be written are under their own keys, and the latter are
under keys of the batch. -/
structure Progress.Keyed (progress : Progress) (keys : List Key) : Prop where
  current : Batch.Keyed progress.current
  dirty : Batch.Keyed progress.dirty
  named : ∀ key r, progress.dirty.find? key = some r → key ∈ keys

theorem Progress.Keyed.start {stored : SortedMap Key Record} (h : Batch.Keyed stored) :
    Progress.Keyed ⟨stored, ∅, ∅⟩ keys :=
  ⟨h, Batch.keyed_empty, fun _ _ hr => absurd hr.symm (Option.some_ne_none _)⟩

section

variable (hmerger : ∀ existing incoming,
  (merger.merge existing incoming headers).record.key = existing.key)

include hmerger

theorem Progress.Keyed.mergeOne {progress : Progress} (h : progress.Keyed keys) {incoming : Record}
    (hkey : incoming.key ∈ keys) :
    (mergeOne headers merger progress incoming).Keyed keys := by
  have hnamed {merged : Record} (hmerged : merged.key = incoming.key) (key : Key) (r : Record)
      (hr : (progress.dirty.insert merged.key merged).find? key = some r) : key ∈ keys := by
    rw [SortedMap.find?_insert_eq] at hr
    split at hr
    · rename_i hsame
      rwa [hsame, hmerged]
    · exact h.named key r hr
  rw [Store.mergeOne]
  cases hfind : progress.current.find? incoming.key with
  | none => exact ⟨h.current.insert incoming, h.dirty.insert incoming, hnamed rfl⟩
  | some existing =>
    dsimp only
    split
    · exact ⟨h.current, h.dirty, h.named⟩
    · refine ⟨h.current.insert _, h.dirty.insert _, hnamed ?_⟩
      rw [hmerger, h.current incoming.key existing hfind]

theorem Progress.Keyed.foldl {records : List Record} {progress : Progress}
    (h : progress.Keyed keys)
    (hkeys : ∀ r ∈ records, r.key ∈ keys) :
    (records.foldl (Store.mergeOne headers merger) progress).Keyed keys := by
  induction records generalizing progress with
  | nil => exact h
  | cons r records ih =>
    obtain ⟨hr, hrest⟩ := List.forall_mem_cons.1 hkeys
    exact ih (mergeOne hmerger h hr) hrest

/-- **Merging with rows.** A batch is merged with the records of its rows; afterwards a record that
was written is found in place of the one found before. -/
theorem mergeRows_eq {table : Table} {c : SortedMap Key Record} {config : StoreConfig}
    (dates : WriteDates) {records : List Record}
    (hkeyed : Batch.Keyed c)
    (hread : ∀ r ∈ records, table.read? r.key = (c.find? r.key).map .ok)
    (hbinds : Database.Binds config.maxParameters
      (Batch.distinct (records.map Record.key)).length) :
    ∃ (stored : SortedMap Key Record) (written : Table),
      (∀ key, stored.find? key = if key ∈ records.map Record.key then c.find? key else none) ∧
      let progress := records.foldl (mergeOne headers merger) ⟨stored, ∅, ∅⟩
      mergeRows config dates records headers merger ⟨some table⟩ =
        .ok (progress.changed, ⟨some written⟩) ∧
      (progress.dirty.values.map (dates.row config.trackDates)).foldlM
        (Table.upsert ⟨false, config.trackDates⟩) table = .ok written ∧
      (table.keys.Nodup → written.keys.Nodup) ∧
      ∀ key, written.read? key =
        ((progress.dirty.find? key).map fun r => (dates.row config.trackDates r).decode).or
          (table.read? key) := by
  have hdistinct : ∀ key ∈ Batch.distinct (records.map Record.key),
      table.read? key = (c.find? key).map .ok := by
    intro key hkey
    obtain ⟨r, hr, rfl⟩ := List.mem_map.1 (Batch.mem_distinct.1 hkey)
    exact hread r hr
  have hselect : Database.select ⟨some table⟩ config.maxParameters (records.map Record.key) = _ :=
    Database.select_eq table hbinds
  rw [mapM_decode_eq hdistinct] at hselect
  generalize hstored : Batch.byKey ((Batch.distinct (records.map Record.key)).filterMap c.find?) =
    stored at *
  have hfound (key : Key) :
      stored.find? key = if key ∈ records.map Record.key then c.find? key else none :=
    hstored ▸ hkeyed.find?_byKey_distinct _ key
  have hprogress : (records.foldl (mergeOne headers merger) ⟨stored, ∅, ∅⟩).Keyed
      (Batch.distinct (records.map Record.key)) :=
    Progress.Keyed.foldl hmerger (.start (hstored ▸ Batch.keyed_byKey _)) fun r hr =>
       Batch.mem_distinct.2 (List.mem_map_of_mem hr)
  generalize hfolded : records.foldl (mergeOne headers merger) ⟨stored, ∅, ∅⟩ = progress at *
  -- no more rows are written than keys were read, so these fit into one statement as well
  have hfew : (progress.dirty.values.map (dates.row config.trackDates)).length ≤
      (Batch.distinct (records.map Record.key)).length := by
    rw [List.length_map, SortedMap.values, List.length_map]
    exact SortedMap.size_le hprogress.named
  obtain ⟨written, hwritten, hrows, hnodup, hlast⟩ :=
    Database.upsert_replace config.trackDates table hbinds hfew
  refine ⟨stored, written, hfound, ?_⟩
  rw [hfolded]
  refine ⟨?_, hrows, hnodup, fun key => ?_⟩
  · rw [mergeRows, hselect]
    simp only [bind, Except.bind, hstored, hfolded, hwritten]
    rfl
  · rw [hlast, hprogress.dirty.find?_rows, Option.map_map]
    rfl

/-- The same for the whole call, unless the headers ask for something else. -/
theorem merge_eq {s : Store} {table : Table} {c : SortedMap Key Record} (now : Instant)
    {records : List Record} (hdatabase : s.database = ⟨some table⟩) (hrecords : records ≠ [])
    (hstore : headers.has Headers.doNotStore = false)
    (hmemory : headers.has Headers.memoryCacheOnly = false)
    (hslow : (merger.isFieldOverwrite && headers.has Headers.errorsReplaceCachedValues) = false)
    (hkeyed : Batch.Keyed c)
    (hread : ∀ r ∈ records, table.read? r.key = (c.find? r.key).map .ok)
    (hbinds : Database.Binds s.config.maxParameters
      (Batch.distinct (records.map Record.key)).length) :
    ∃ (stored : SortedMap Key Record) (written : Table),
      (∀ key, stored.find? key = if key ∈ records.map Record.key then c.find? key else none) ∧
      let incoming := records.map (Record.stamped s.config.trackDates headers)
      let progress := incoming.foldl (mergeOne headers merger) ⟨stored, ∅, ∅⟩
      let dates := WriteDates.ofHeaders now headers
      s.merge now records headers merger =
        ⟨progress.changed, { s with database := ⟨some written⟩ }, []⟩ ∧
      (progress.dirty.values.map (dates.row s.config.trackDates)).foldlM
        (Table.upsert ⟨false, s.config.trackDates⟩) table = .ok written ∧
      (table.keys.Nodup → written.keys.Nodup) ∧
      ∀ key, written.read? key =
        ((progress.dirty.find? key).map fun r => (dates.row s.config.trackDates r).decode).or
          (table.read? key) := by
  have hkeys : (records.map (Record.stamped s.config.trackDates headers)).map Record.key =
      records.map Record.key := Record.keys_stamped _ _ _
  have hstamped : ∀ r ∈ records.map (Record.stamped s.config.trackDates headers),
      table.read? r.key = (c.find? r.key).map .ok := by
    refine List.forall_mem_map.2 fun r hr => ?_
    rw [Record.key_stamped]
    exact hread r hr
  obtain ⟨stored, written, hfound, hmerge, hrows, hnodup, hlast⟩ :=
    mergeRows_eq hmerger (WriteDates.ofHeaders now headers) hkeyed hstamped
      (by rwa [hkeys])
  refine ⟨stored, written, fun key => hkeys ▸ hfound key, ?_, hrows, hnodup, hlast⟩
  rw [merge_eq_run now merger hrecords hstore hmemory, run, hdatabase]
  simp only [mergeIn, hslow, hmerge]
  rfl

end

/-- One record, merged by itself without headers. -/
theorem merge_one {s : Store} {table : Table} {current : Option Record} {r : Record}
    (now : Instant) (hdatabase : s.database = ⟨some table⟩)
    (hcurrent : table.read? r.key = current.map .ok)
    (hfields : current = none ∨ r.isEmpty = false) :
    ∃ written : Table,
      (s.merge now [r] Headers.none Merger.overwrite).state =
        { s with database := ⟨some written⟩ } ∧
      (table.keys.Nodup → written.keys.Nodup) ∧
      ∀ key, written.read? key =
        if key = r.key then
          some ((WriteDates.ofHeaders now Headers.none).row s.config.trackDates
            (Merger.settled current r)).decode
        else table.read? key := by
  have hstamped : r.stamped s.config.trackDates Headers.none = r := by
    rw [Record.stamped]
    split <;> rfl
  have hoverwrite (existing incoming : Record) :
      (Merger.overwrite.merge existing incoming Headers.none).record.key = existing.key := rfl
  obtain ⟨c, hkeyed, hc⟩ := exists_keyed hcurrent
  have hread : ∀ incoming ∈ [r], table.read? incoming.key = (c.find? incoming.key).map .ok := by
    intro incoming hincoming
    rw [List.mem_singleton.1 hincoming, hc]
    exact hcurrent
  obtain ⟨stored, written, hfound, hmerge, -, hnodup, hlast⟩ := merge_eq hoverwrite now
    hdatabase (List.cons_ne_nil r []) rfl rfl rfl hkeyed hread (.one _)
  refine ⟨written, by rw [hmerge], hnodup, fun key => ?_⟩
  have hstored : stored.find? r.key = current := by
    have hmem : r.key ∈ [r].map Record.key := List.mem_singleton.2 rfl
    rw [hfound, if_pos hmem, hc]
  -- the one record is written, since something was incoming or nothing was stored
  have hdirty : (mergeOne Headers.none Merger.overwrite ⟨stored, ∅, ∅⟩ r).dirty =
      SortedMap.insert ∅ r.key (Merger.settled current r) := by
    rw [mergeOne, hstored]
    cases current with
    | none => rfl
    | some existing =>
      have hmerged : (Merger.overwrite.merge existing r Headers.none).record.isEmpty = false :=
        Merger.isEmpty_overwrite (hfields.resolve_left (Option.some_ne_none _))
      dsimp only
      rw [hmerged, ← hkeyed r.key existing hc]
      rfl
  rw [hlast]
  simp only [List.map_cons, List.map_nil, List.foldl_cons, List.foldl_nil, hstamped, hdirty,
    SortedMap.find?_insert_eq]
  split <;> rfl

end Store
end RecordCache
