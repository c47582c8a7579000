import RecordCache.Proofs.Changes
import RecordCache.Proofs.Database.Upsert
import RecordCache.Proofs.Store.Contents

/-!
# The two ways to merge

When errors may replace values, a batch can be merged in the table, each blob laid over the one that
is stored, or in memory, after reading the rows. Both ways do the same, but for one thing: in the
table a record is written and read back for each record of its key in the batch, and in memory only
once. A floating-point number of the stored record may change each time.

* `Store.Rereads` says what the rows hold when they were read back so many times, and
  `Rereads.foldl` that laying a batch over them merges it into the contents;
* `Store.Progress.Keyed.contains_foldl`: every key of a batch is written;
* `Store.merge_fast_eq`, `merge_slow_eq`: either way to merge a batch;
* `Store.decode_either_way`: what the rows of a key are read as then;
* `Store.merge_either_way` compares the two, and `merge_ways_differ` shows where they part.
-/

namespace RecordCache

namespace Store

variable {headers : Headers} {K : Key → Prop} {records : List Record}

/-! ### In the table -/

/-- Under some keys a table holds the records, after each was read back so many times. -/
structure Rereads (K : Key → Prop) (times : Key → Nat) (c : Contents) (table : Table) : Prop where
  keyed : Batch.Keyed c
  read : ∀ key, K key → table.read? key = ((c.find? key).map Record.reread^[times key]).map .ok

section Table

variable {times : Key → Nat} {result : NameSet × Contents} {table : Table}

/-- A row is written: under its key a record is read back once more, and the others stay. -/
theorem Rereads.insert {c : Contents} (h : Rereads K times c table) {written : Table}
    {updated : Row} (hreplaces : Table.Replaces updated table.rows written.rows) {merged : Record}
    (hkey : updated.key = merged.key)
    (hdecode : updated.decode = .ok (Record.reread^[times merged.key + 1] merged)) :
    Rereads K (fun key => times key + if merged.key = key then 1 else 0)
      (c.insert merged.key merged) written := by
  refine ⟨h.keyed.insert merged, fun key hK => ?_⟩
  rw [Table.read?, Table.find?, hreplaces.find key, hkey, SortedMap.find?_insert_eq]
  by_cases hsame : key = merged.key
  · rw [if_pos hsame, if_pos hsame, if_pos hsame.symm, hsame]
    exact congrArg some hdecode
  · rw [if_neg hsame, if_neg hsame, if_neg (Ne.symm hsame)]
    exact h.read key hK

/-- One more record, which is written and read back with what is there under its key. -/
theorem Rereads.mergeOne (h : Rereads K times result.2 table)
    (hheaders : headers.has Headers.errorsReplaceCachedValues = true) (dates : WriteDates)
    (trackDates : Bool) {r : Record} (hr : r.Exact) (hkey : K r.key) :
    ∃ written, Table.upsert ⟨true, trackDates⟩ table (dates.row trackDates r) = .ok written ∧
      Rereads K (fun key => times key + if r.key = key then 1 else 0)
        (Contents.mergeOne headers .overwrite result r).2 written := by
  have hread := h.read r.key hkey
  have hrow : (dates.row trackDates r).key = r.key := rfl
  cases hfind : result.2.find? r.key with
  | none =>
    have hnone : table.find? r.key = none := by
      rw [hfind] at hread
      exact Option.map_eq_none_iff.1 hread
    obtain ⟨written, hwritten, -, hreplaces⟩ := Table.upsert_ok
      (show Table.absorb ⟨true, trackDates⟩ (table.find? (dates.row trackDates r).key) _ = .ok _ by
        rw [hrow, hnone]; rfl)
    -- a new row holds an exact record, which stays the same however often it is read back
    have hdecode : (dates.row trackDates r).decode =
        .ok (Record.reread^[times r.key + 1] r) := by
      rw [hr.decode_row, Function.iterate_fixed hr.reread_self]
    refine ⟨written, hwritten, ?_⟩
    rw [Contents.mergeOne, hfind]
    exact h.insert hreplaces hrow hdecode
  | some existing =>
    rw [hfind] at hread
    obtain ⟨stored, hstored, hdecode⟩ := Option.map_eq_some_iff.1 hread
    obtain ⟨updated, hupdated, hupdatedDecode⟩ :=
      Table.updateRow_overlay hdecode hr dates trackDates
    obtain ⟨written, hwritten, hupdatedKey, hreplaces⟩ := Table.upsert_ok
      (show Table.absorb ⟨true, trackDates⟩ (table.find? (dates.row trackDates r).key) _ = .ok _ by
        rw [hrow, hstored]; exact hupdated)
    have hmergedKey : (existing.overlay r).key = r.key := by
      rw [Record.key_overlay, h.keyed r.key existing hfind]
    refine ⟨written, hwritten, ?_⟩
    rw [Contents.mergeOne, hfind]
    simp only [Merger.record_overwrite hheaders existing hr]
    have hmerged := h.insert hreplaces ((hupdatedKey.trans hrow).trans hmergedKey.symm)
      (by rw [hupdatedDecode, hmergedKey, Function.iterate_succ_apply',
        Record.overlay_iterate_reread _ _ hr])
    rwa [hmergedKey] at hmerged ⊢

/-- **In the table.** Laying a batch over the rows merges it into what they hold. -/
theorem Rereads.foldl (h : Rereads K times result.2 table)
    (hheaders : headers.has Headers.errorsReplaceCachedValues = true) (dates : WriteDates)
    (trackDates : Bool) (hrecords : ∀ r ∈ records, r.Exact ∧ K r.key) :
    ∃ written, (records.map (dates.row trackDates)).foldlM
        (Table.upsert ⟨true, trackDates⟩) table = .ok written ∧
      Rereads K (fun key => times key + (records.map Record.key).count key)
        (records.foldl (Contents.mergeOne headers .overwrite) result).2 written := by
  induction records generalizing table result times with
  | nil => exact ⟨table, rfl, h⟩
  | cons r records ih =>
    obtain ⟨⟨hr, hkey⟩, hrest⟩ := List.forall_mem_cons.1 hrecords
    obtain ⟨first, hfirst, hheld⟩ := h.mergeOne hheaders dates trackDates hr hkey
    obtain ⟨written, hwritten, hall⟩ := ih hheld hrest
    refine ⟨written, ?_, hall.keyed, fun key hK => ?_⟩
    · rw [List.map_cons, List.foldlM_cons, hfirst]
      exact hwritten
    · have htimes : times key + ((r :: records).map Record.key).count key =
          times key + (if r.key = key then 1 else 0) + (records.map Record.key).count key := by
        rw [List.map_cons, List.count_cons]
        simp only [beq_iff_eq]
        omega
      rw [htimes]
      exact hall.read key hK

end Table

/-! ### In memory -/

/-- The plain merger, as one that has to be applied to the rows. -/
def plainMerger : Merger := { Merger.overwrite with isFieldOverwrite := false }

theorem key_plainMerger (existing incoming : Record) :
    (plainMerger.merge existing incoming headers).record.key = existing.key := rfl

/-- Every record that is merged is written. -/
theorem Progress.Keyed.contains_mergeOne {progress : Progress} {keys : List Key}
    (h : progress.Keyed keys) (headers : Headers) {r : Record} (hfields : r.isEmpty = false)
    (key : Key) :
    (Store.mergeOne headers plainMerger progress r).dirty.contains key = true ↔
      progress.dirty.contains key = true ∨ key = r.key := by
  have hinsert (merged : Record) (hkey : merged.key = r.key) :
      (progress.dirty.insert merged.key merged).contains key = true ↔
        progress.dirty.contains key = true ∨ key = r.key := by
    rw [SortedMap.contains, SortedMap.contains, SortedMap.find?_insert_eq, hkey]
    by_cases hsame : key = r.key <;> simp [hsame]
  rw [Store.mergeOne]
  cases hfind : progress.current.find? r.key with
  | none => exact hinsert r rfl
  | some existing =>
    have hmerged : (plainMerger.merge existing r headers).record.isEmpty = false :=
      Merger.isEmpty_overwrite hfields
    dsimp only
    rw [hmerged]
    exact hinsert _ (h.current r.key existing hfind)

theorem Progress.Keyed.contains_foldl {progress : Progress} {keys : List Key}
    (h : progress.Keyed keys) (headers : Headers)
    (hrecords : ∀ r ∈ records, r.isEmpty = false ∧ r.key ∈ keys) (key : Key) :
    (records.foldl (Store.mergeOne headers plainMerger) progress).dirty.contains key = true ↔
      progress.dirty.contains key = true ∨ key ∈ records.map Record.key := by
  induction records generalizing progress with
  | nil => simp
  | cons r records ih =>
    obtain ⟨⟨hfields, hkey⟩, hrest⟩ := List.forall_mem_cons.1 hrecords
    rw [List.foldl_cons, ih (.mergeOne key_plainMerger h hkey) hrest,
      h.contains_mergeOne headers hfields, List.map_cons, List.mem_cons, or_assoc]

/-- The batch merged with the rows beside the batch merged with the contents. -/
theorem Progress.Follows.foldl_plain {progress : Progress} {c : Contents} {keys : List Key}
    {result : NameSet × Contents} (h : progress.Follows c keys result) (headers : Headers)
    (hrecords : ∀ r ∈ records, r.isEmpty = false ∧ r.key ∈ keys) :
    (records.foldl (Store.mergeOne headers plainMerger) progress).Follows c keys
      (records.foldl (Contents.mergeOne headers .overwrite) result) := by
  induction records generalizing progress result with
  | nil => exact h
  | cons r records ih =>
    obtain ⟨⟨hr, hkey⟩, hrest⟩ := List.forall_mem_cons.1 hrecords
    exact ih (h.mergeOne hkey fun existing _ => Merger.isEmpty_overwrite hr) hrest

/-! ### Side by side -/

/-- What the record stored under a key has, and laying a record over another keeps, the record
merged under the key has. -/
theorem find?_merge_induction {P : Record → Prop} {result : NameSet × Contents}
    (hheaders : headers.has Headers.errorsReplaceCachedValues = true)
    (hkeyed : Batch.Keyed result.2) (hrecords : ∀ r ∈ records, r.Exact ∧ P r)
    (hoverlay : ∀ stored r, P stored → r.Exact → P r → P (stored.overlay r)) {key : Key}
    (hstored : ∀ r, result.2.find? key = some r → P r) {r : Record}
    (hfind : (records.foldl (Contents.mergeOne headers .overwrite) result).2.find? key = some r) :
    P r := by
  induction records generalizing result with
  | nil => exact hstored r hfind
  | cons next records ih =>
    obtain ⟨⟨hexact, hnext⟩, hrest⟩ := List.forall_mem_cons.1 hrecords
    have hinsert (merged : Record) (hmerged : P merged) (r : Record)
        (hr : (result.2.insert merged.key merged).find? key = some r) : P r := by
      rw [SortedMap.find?_insert_eq] at hr
      split at hr
      · cases hr
        exact hmerged
      · exact hstored r hr
    rw [List.foldl_cons, Contents.mergeOne] at hfind
    cases hold : result.2.find? next.key with
    | none =>
      rw [hold] at hfind
      exact ih (hkeyed.insert next) hrest (hinsert next hnext) hfind
    | some existing =>
      rw [hold] at hfind
      simp only [Merger.record_overwrite hheaders existing hexact] at hfind
      refine ih (hkeyed.insert _) hrest (fun r hr => ?_) hfind
      by_cases hkey : next.key = key
      · exact hinsert _ (hoverlay existing next (hstored _ (hkey ▸ hold)) hexact hnext) r hr
      · have hother : key ≠ (existing.overlay next).key := by
          rw [Record.key_overlay, hkeyed next.key existing hold]
          exact Ne.symm hkey
        rw [SortedMap.find?_insert_eq, if_neg hother] at hr
        exact hstored r hr

/-- What an exact batch leaves under a key can be written, if what was there comes from a row. If
that held no floating-point number, the record is read back as it is. -/
theorem storable_of_merge {c : Contents}
    (hheaders : headers.has Headers.errorsReplaceCachedValues = true) (hkeyed : Batch.Keyed c)
    (hrecords : ∀ r ∈ records, r.Exact) {key : Key}
    (hstored : ∀ r, c.find? key = some r → r.Storable .stored) {r : Record}
    (hfind : (c.merge headers .overwrite records).2.find? key = some r) :
    r.Storable .finite ∧ ((∀ r, c.find? key = some r → r.IsExact) → r.reread = r) := by
  constructor
  · exact find?_merge_induction hheaders hkeyed
      (fun r hr => ⟨hrecords r hr, (hrecords r hr).storable⟩)
      (fun _ _ h _ htop => h.overlay htop) (fun r hr => (hstored r hr).finite) hfind
  · intro hexact
    refine find?_merge_induction (P := fun r => r.reread = r) hheaders hkeyed
      (fun r hr => ⟨hrecords r hr, (hrecords r hr).reread_self⟩) (fun stored top h htop _ => ?_)
      (fun r hr => (hstored r hr).reread_self (hexact r hr)) hfind
    rw [Record.overlay_reread stored htop, h]

/-- The rows of a key after either way: the first was written and read back once more for each
further record of the key. -/
theorem decode_either_way {c : Contents} {dates : WriteDates} {trackDates : Bool} {times : Nat}
    (hheaders : headers.has Headers.errorsReplaceCachedValues = true) (hkeyed : Batch.Keyed c)
    (hrecords : ∀ r ∈ records, r.Exact) {key : Key}
    (hstored : ∀ r, c.find? key = some r → r.Storable .stored) {laid merged : Row}
    (hlaid : some laid.decode = (((c.merge headers .overwrite records).2.find? key).map
      Record.reread^[times + 1]).map .ok)
    (hmerged : some merged.decode = ((c.merge headers .overwrite records).2.find? key).map
      fun r => (dates.row trackDates r).decode) :
    ∃ r, merged.decode = .ok r ∧ laid.decode = .ok (Record.reread^[times] r) ∧
      ((∀ r, c.find? key = some r → r.IsExact) → laid.decode = .ok r) := by
  obtain ⟨r, hr, hdecode⟩ := Option.map_eq_some_iff.1 hmerged.symm
  rw [hr] at hlaid
  have hlaidDecode : laid.decode = .ok (Record.reread^[times + 1] r) := Option.some.inj hlaid
  obtain ⟨hstorable, hself⟩ := storable_of_merge hheaders hkeyed hrecords hstored hr
  refine ⟨r.reread, ?_, ?_, fun hexact => ?_⟩
  · rw [← hdecode, hstorable.decode_row]
  · rw [hlaidDecode, Function.iterate_succ_apply]
  · rw [hlaidDecode, Function.iterate_fixed (hself hexact), hself hexact]

/-- The rows of records have the keys of these. -/
theorem keys_row (dates : WriteDates) (trackDates : Bool) (records : List Record) :
    (records.map (dates.row trackDates)).map Row.key = records.map Record.key :=
  List.map_map

theorem date_of_row (dates : WriteDates) (trackDates : Bool) (records : List Record) :
    ∀ row ∈ records.map (dates.row trackDates), row.updatedDate = dates.updated :=
  List.forall_mem_map.2 fun _ _ => rfl

section Ways

variable {store : Store} {table : Table}

theorem read?_readable (hdatabase : store.database = ⟨some table⟩) {keys : List Key}
    (hreadable : ∀ key ∈ keys, ¬store.database.Unreadable key) {key : Key} (hkey : key ∈ keys) :
    table.read? key = (store.database.readable.find? key).map .ok := by
  have htable : store.database.read? key = table.read? key := by
    rw [hdatabase]
    rfl
  rw [← htable, Database.read?_eq hreadable key hkey]

theorem merge_fast_eq (now : Instant) (hdatabase : store.database = ⟨some table⟩)
    (hempty : records ≠ []) (hstore : headers.has Headers.doNotStore = false)
    (hmemory : headers.has Headers.memoryCacheOnly = false)
    (hheaders : headers.has Headers.errorsReplaceCachedValues = true)
    (hrecords : ∀ r ∈ records, r.Exact)
    (hreadable : ∀ r ∈ records, ¬store.database.Unreadable r.key)
    (hbinds : Database.Binds store.config.maxParameters records.length) :
    let incoming := records.map (Record.stamped store.config.trackDates headers)
    let dates := WriteDates.ofHeaders now headers
    ∃ written, store.merge now records headers .overwrite =
        ⟨.ofList (incoming.flatMap fun r => r.fieldPaths.toList),
          { store with database := ⟨some written⟩ }, []⟩ ∧
      Table.Wrote (records.map Record.key) dates.updated table written ∧
      Rereads (· ∈ records.map Record.key) (records.map Record.key).count
        (store.database.readable.merge headers .overwrite incoming).2 written := by
  intro incoming dates
  have hkeys : incoming.map Record.key = records.map Record.key :=
    Record.keys_stamped _ _ _
  have hincoming : ∀ r ∈ incoming, r.Exact ∧ r.key ∈ records.map Record.key := by
    refine List.forall_mem_map.2 fun r hr => ⟨?_, Record.key_stamped_mem hr _ _⟩
    exact (hrecords r hr).stamped fun _ => ⟨.integer _, Nat.zero_le _⟩
  have hstart : Rereads (· ∈ records.map Record.key) (fun _ => 0)
      ((∅, store.database.readable) : NameSet × Contents).2 table := by
    refine ⟨Database.keyed_readable _, fun key hkey => ?_⟩
    rw [read?_readable hdatabase (List.forall_mem_map.2 hreadable) hkey]
    simp
  obtain ⟨written, hwritten, hheld⟩ :=
    hstart.foldl hheaders dates store.config.trackDates hincoming
  have hwrote := Table.wrote_of_foldlM (date_of_row dates store.config.trackDates incoming) hwritten
  rw [keys_row, hkeys] at hwrote
  refine ⟨written, ?_, hwrote, ?_⟩
  · have hfast : (Merger.overwrite.isFieldOverwrite &&
        headers.has Headers.errorsReplaceCachedValues) = true := hheaders
    have hupsert : Database.upsert ⟨true, store.config.trackDates⟩ store.config.maxParameters
        (incoming.map (dates.row store.config.trackDates)) ⟨some table⟩ = .ok ⟨some written⟩ := by
      rw [Database.upsert_eq table hbinds (by simp [incoming]), hwritten]
      rfl
    rw [merge_eq_run now _ hempty hstore hmemory, run, hdatabase]
    simp only [mergeIn, hfast, if_true, mergeFast]
    rw [hupsert]
    rfl
  · simp only [hkeys, Nat.zero_add] at hheld
    exact hheld

theorem merge_slow_eq (now : Instant) (hdatabase : store.database = ⟨some table⟩)
    (hempty : records ≠ []) (hstore : headers.has Headers.doNotStore = false)
    (hmemory : headers.has Headers.memoryCacheOnly = false)
    (hrecords : ∀ r ∈ records, r.isEmpty = false)
    (hreadable : ∀ r ∈ records, ¬store.database.Unreadable r.key)
    (hbinds : Database.Binds store.config.maxParameters
      (Batch.distinct (records.map Record.key)).length) :
    let incoming := records.map (Record.stamped store.config.trackDates headers)
    let result := store.database.readable.merge headers .overwrite incoming
    let dates := WriteDates.ofHeaders now headers
    ∃ written : Table, store.merge now records headers plainMerger =
        ⟨result.1, { store with database := ⟨some written⟩ }, []⟩ ∧
      Table.Wrote (records.map Record.key) dates.updated table written ∧
      ∀ key ∈ records.map Record.key, written.read? key =
        (result.2.find? key).map fun r => (dates.row store.config.trackDates r).decode := by
  intro incoming result dates
  have hkeys : incoming.map Record.key = records.map Record.key :=
    Record.keys_stamped _ _ _
  have hread : ∀ r ∈ records, table.read? r.key =
      (store.database.readable.find? r.key).map .ok := fun r hr =>
    read?_readable hdatabase (List.forall_mem_map.2 hreadable) (List.mem_map_of_mem hr)
  obtain ⟨stored, written, hfound, hmerge, hrows, -, hlast⟩ := merge_eq key_plainMerger now
    hdatabase hempty hstore hmemory rfl (Database.keyed_readable _) hread hbinds
  have hincoming : ∀ r ∈ incoming, r.isEmpty = false ∧ r.key ∈ records.map Record.key := by
    refine List.forall_mem_map.2 fun r hr => ⟨?_, Record.key_stamped_mem hr _ _⟩
    rw [Record.isEmpty, Record.fields_stamped]
    exact hrecords r hr
  have hkeyed : Progress.Keyed ⟨stored, ∅, ∅⟩ (records.map Record.key) :=
    .start ((Database.keyed_readable _).restrict hfound)
  have hfollows := (Progress.follows_start hfound).foldl_plain headers hincoming
  have hcontains := hkeyed.contains_foldl headers hincoming
  have hdirty : Batch.Keyed (incoming.foldl (Store.mergeOne headers plainMerger)
      ⟨stored, ∅, ∅⟩).dirty :=
    (hkeyed.foldl key_plainMerger fun r hr => (hincoming r hr).2).dirty
  generalize hprogress : incoming.foldl (Store.mergeOne headers plainMerger) ⟨stored, ∅, ∅⟩ =
    progress at *
  -- every record of the batch is written, so nothing is read that was there before
  have hwrites (key : Key) : progress.dirty.contains key = true ↔
      key ∈ records.map Record.key := by
    rw [hcontains, hkeys]
    exact or_iff_right Bool.false_ne_true
  have hwrote := Table.wrote_of_foldlM
    (date_of_row dates store.config.trackDates progress.dirty.values) hrows
  rw [keys_row] at hwrote
  refine ⟨written, ?_, hwrote.congr fun key => hdirty.mem_map_key.trans (hwrites key),
    fun key hkey => ?_⟩
  · rw [hmerge, hfollows.changed]
    rfl
  · obtain ⟨r, hfind⟩ := SortedMap.contains_iff.1 ((hwrites key).2 hkey)
    have hmerged : result.2.find? key = some r := by
      have hlaid := hfollows.dirty key
      rw [hfind] at hlaid
      exact hlaid.symm
    rw [hlast, hfind, hmerged]
    rfl

/-- **The two ways to merge.** When errors may replace values, an exact batch can be laid over the
rows, or merged with the records read from them. Neither way fails or changes any other row, the
changes that the second reports are among those of the first, and the rows of a key have the same
type and date. The record of the first is that of the second, read back once for each further record
of the key; it is the same one if the stored record held no floating-point number. -/
theorem merge_either_way (now : Instant) (hdatabase : store.database = ⟨some table⟩)
    (hheaders : headers.has Headers.errorsReplaceCachedValues = true)
    (hrecords : ∀ r ∈ records, r.isEmpty = false ∧ r.IsExact ∧
      (Blob.ofRecord r).toJson.nesting ≤ Json.depthLimit)
    (hreadable : ∀ r ∈ records, ¬store.database.Unreadable r.key)
    (hbinds : Database.Binds store.config.maxParameters records.length) :
    let fast := store.merge now records headers .overwrite
    let slow := store.merge now records headers plainMerger
    let named := records.map Record.key
    let rowsOf := fun (keys : Key → Bool) (t : Table) => t.rows.filter fun row => keys row.key
    fast.reports = [] ∧ slow.reports = [] ∧
      (∀ path, slow.value.contains path = true → fast.value.contains path = true) ∧
      ∃ laid merged : Table,
        fast.state = { store with database := ⟨some laid⟩ } ∧
        slow.state = { store with database := ⟨some merged⟩ } ∧
        (∀ others : Key → Bool, (∀ key ∈ named, others key = false) →
          rowsOf others laid = rowsOf others table ∧
            rowsOf others merged = rowsOf others table) ∧
        (headers.has Headers.doNotStore = true ∨ headers.has Headers.memoryCacheOnly = true →
          laid = table ∧ merged = table) ∧
        (headers.has Headers.doNotStore = false → headers.has Headers.memoryCacheOnly = false →
          ∀ key ∈ named, ∃ laidRow mergedRow r,
            laid.find? key = some laidRow ∧ merged.find? key = some mergedRow ∧
            laidRow.typeName = mergedRow.typeName ∧
            laidRow.updatedDate = mergedRow.updatedDate ∧
            mergedRow.decode = .ok r ∧
            laidRow.decode = .ok (Record.reread^[named.count key - 1] r) ∧
            ((∀ stored, table.read? key = some (.ok stored) → stored.IsExact) →
              laidRow.decode = .ok r)) := by
  intro fast slow named rowsOf
  by_cases hskip : (headers.has Headers.doNotStore || records.isEmpty ||
      headers.has Headers.memoryCacheOnly) = true
  · -- a batch that is not written at all: both ways leave the table as it is
    have hstate : store = { store with database := ⟨some table⟩ } := by rw [← hdatabase]
    rw [show fast = _ from merge_skipped now _ hskip, show slow = _ from merge_skipped now _ hskip]
    refine ⟨rfl, rfl, fun _ h => h, table, table, hstate, hstate, fun _ _ => ⟨rfl, rfl⟩,
      fun _ => ⟨rfl, rfl⟩, fun hstore hmemory key hkey => ?_⟩
    have hempty : records = [] := by simpa [hstore, hmemory] using hskip
    simp [named, hempty] at hkey
  have hstore : headers.has Headers.doNotStore = false := by
    by_contra h
    simp [h] at hskip
  have hmemory : headers.has Headers.memoryCacheOnly = false := by
    by_contra h
    simp [h] at hskip
  have hempty : records ≠ [] := by
    rintro rfl
    simp at hskip
  have hexact : ∀ r ∈ records, r.Exact := fun r hr =>
    (hrecords r hr).2.1.exact (hrecords r hr).2.2
  obtain ⟨laid, hfast, hlaid, hreread⟩ := merge_fast_eq now hdatabase hempty hstore hmemory hheaders
    hexact hreadable hbinds
  -- the second way names each key once, so it binds no more parameters than the first
  have hdistinct : (Batch.distinct named).length ≤ records.length := by
    rw [← List.length_map Record.key]
    exact Batch.length_distinct_le _
  obtain ⟨merged, hslow, hmerged, hread⟩ := merge_slow_eq now hdatabase hempty hstore hmemory
    (fun r hr => (hrecords r hr).1) hreadable (hbinds.mono hdistinct)
  have hincoming : ∀ r ∈ records.map (Record.stamped store.config.trackDates headers),
      r.Exact :=
    List.forall_mem_map.2 fun r hr =>
      (hexact r hr).stamped fun _ => ⟨.integer _, Nat.zero_le _⟩
  have hstored (key : Key) (hkey : key ∈ named) (r : Record)
      (hr : store.database.readable.find? key = some r) : table.read? key = some (.ok r) := by
    rw [read?_readable hdatabase (List.forall_mem_map.2 hreadable) hkey, hr]
    rfl
  have hstorable {key : Key} {r : Record} (hr : table.read? key = some (.ok r)) :
      r.Storable .stored := by
    obtain ⟨row, -, hrow⟩ := Option.map_eq_some_iff.1 hr
    exact Row.storable_of_decode hrow
  rw [show fast = _ from hfast, show slow = _ from hslow]
  refine ⟨rfl, rfl, fun path hpath => ?_, laid, merged, rfl, rfl,
    fun others hothers => ⟨hlaid.others others hothers, hmerged.others others hothers⟩,
    fun hskipped => ?_, fun _ _ key hkey => ?_⟩
  · -- the first way reports all fields of the batch, the second only those that changed
    rcases (Contents.batched_foldl _ _ _ _).fieldPaths .overwrite
      (Database.keyed_readable store.database) hpath with hnone | ⟨r, hr, hpath⟩
    · cases hnone
    · rw [SortedSet.contains_ofList, decide_eq_true_iff, List.mem_flatMap]
      exact ⟨r, hr, SortedSet.mem_toList.2 hpath⟩
  · simp [hstore, hmemory] at hskipped
  · -- the row of a key named: each way reads it back from what it wrote
    obtain ⟨laidRow, hlaidRow, hlaidDate⟩ := hlaid.dates key hkey
    obtain ⟨mergedRow, hmergedRow, hmergedDate⟩ := hmerged.dates key hkey
    have hlaidRead := hreread.read key hkey
    have hmergedRead := hread key hkey
    rw [Table.read?, hlaidRow, ← Nat.sub_add_cancel (List.count_pos_iff.2 hkey)] at hlaidRead
    rw [Table.read?, hmergedRow] at hmergedRead
    obtain ⟨r, hmergedDecode, hlaidDecode, hfixed⟩ := decode_either_way hheaders
      (Database.keyed_readable _) hincoming (fun r hr => hstorable (hstored key hkey r hr))
      hlaidRead hmergedRead
    refine ⟨laidRow, mergedRow, r, hlaidRow, hmergedRow, ?_, hlaidDate.trans hmergedDate.symm,
      hmergedDecode, hlaidDecode, fun hexact => hfixed fun r hr => hexact r (hstored key hkey r hr)⟩
    rw [← (Table.decode_key hlaidDecode).2, ← (Table.decode_key hmergedDecode).2,
      Record.typeName_iterate_reread]

/-- A batch that names a key twice, with a floating-point number stored under it. -/
theorem merge_either_way_float_stored :
    let record (key field : String) (value : Value) : Record :=
      ⟨⟨key⟩, "T", .ofList [(field, value)], ∅, none⟩
    let dates : WriteDates := ⟨0, none, none⟩
    let row := dates.row false (record "a" "x" (.float ⟨0x3FE0000000000000⟩))
    let store : Store := ⟨{}, ⟨some ⟨[row], false⟩⟩⟩
    let batch := [record "a" "y" (.int 1), record "b" "y" .null, record "a" "y" (.int 2)]
    let headers := Headers.none.flag Headers.errorsReplaceCachedValues
    let fast := store.merge ⟨1⟩ batch headers .overwrite
    let slow := store.merge ⟨1⟩ batch headers plainMerger
    (headers.has Headers.errorsReplaceCachedValues = true ∧
      (∀ r ∈ batch, r.isEmpty = false ∧ r.IsExact ∧
        (Blob.ofRecord r).toJson.nesting ≤ Json.depthLimit) ∧
      (∀ r ∈ batch, ¬store.database.Unreadable r.key) ∧
      Database.Binds store.config.maxParameters batch.length) ∧
    fast.reports = [] ∧ slow.reports = [] ∧
      ∃ laid merged : Row, fast.state.database.table.bind (·.find? ⟨"a"⟩) = some laid ∧
        slow.state.database.table.bind (·.find? ⟨"a"⟩) = some merged ∧
        laid.updatedDate = merged.updatedDate ∧
        ∃ r, merged.decode = .ok r ∧ laid.decode = .ok r.reread := by
  intro record dates row store batch headers fast slow
  have hrecord {name : String} {value : Value} (hvalue : value.HasShape .exact)
      (hdepth : (Blob.ofRecord (record name "y" value)).toJson.nesting ≤ Json.depthLimit) :
      (record name "y" value).isEmpty = false ∧ (record name "y" value).IsExact ∧
        (Blob.ofRecord (record name "y" value)).toJson.nesting ≤ Json.depthLimit :=
    ⟨rfl, ⟨SortedMap.all_empty.insert hvalue, SortedMap.all_empty⟩, hdepth⟩
  have hbatch : ∀ r ∈ batch, r.isEmpty = false ∧ r.IsExact ∧
      (Blob.ofRecord r).toJson.nesting ≤ Json.depthLimit := by
    simp only [batch, List.forall_mem_cons, List.not_mem_nil, false_implies, implies_true, and_true]
    exact ⟨hrecord ⟨1, .int 1⟩ (by decide +kernel), hrecord ⟨0, .null⟩ (by decide +kernel),
      hrecord ⟨1, .int 2⟩ (by decide +kernel)⟩
  have hreadable : ∀ r ∈ batch, ¬store.database.Unreadable r.key := by
    have hread : ∀ r ∈ batch, (store.database.read? r.key).all Except.isOk = true := by
      decide +kernel
    rintro r hr ⟨error, herror⟩
    have hok := hread r hr
    rw [herror] at hok
    cases hok
  have hbinds : Database.Binds store.config.maxParameters batch.length := .inl (by decide)
  refine ⟨⟨rfl, hbatch, hreadable, hbinds⟩, ?_⟩
  obtain ⟨hfast, hslow, -, laid, merged, hlaid, hmerged, -, -, hkeys⟩ :=
    merge_either_way ⟨1⟩ rfl (rfl : headers.has Headers.errorsReplaceCachedValues = true) hbatch
      hreadable hbinds
  obtain ⟨laidRow, mergedRow, r, hlaidRow, hmergedRow, -, hdate, hdecode, hreread, -⟩ :=
    hkeys rfl rfl ⟨"a"⟩ (by decide)
  refine ⟨hfast, hslow, laidRow, mergedRow, ?_, ?_, hdate, r, hdecode, hreread⟩
  · rw [show fast.state = _ from hlaid]
    exact hlaidRow
  · rw [show slow.state = _ from hmerged]
    exact hmergedRow

/-- The two ways differ when a floating-point number does not survive being read back, and when a
statement would bind more parameters than it can: the rows of a batch, repeated keys included, may
be too many where the merged records are not. -/
theorem merge_ways_differ :
    let record (field : String) (value : Value) : Record :=
      ⟨⟨"a"⟩, "T", .ofList [(field, value)], ∅, none⟩
    let stored : Store := ((Store.new {}).merge ⟨0⟩ [record "x" (.float ⟨0x3905B7A44EE17958⟩)]
      Headers.none .overwrite).state
    let wide := Store.new { maxParameters := 100000, trackDates := true }
    let headers := Headers.none.flag Headers.errorsReplaceCachedValues
    let runs := [(stored, [record "y" (.int 1), record "y" (.int 2)]),
      (wide, List.replicate 5462 (record "y" .null))]
    headers.has Headers.errorsReplaceCachedValues = true ∧
      ∀ run ∈ runs,
        (∀ r ∈ run.2, r.isEmpty = false ∧ r.IsExact ∧
          (Blob.ofRecord r).toJson.nesting ≤ Json.depthLimit) ∧
        (∀ r ∈ run.2, ¬run.1.database.Unreadable r.key) ∧
        (run.1.merge ⟨1⟩ run.2 headers .overwrite).state.database.read? ⟨"a"⟩ ≠
          (run.1.merge ⟨1⟩ run.2 headers plainMerger).state.database.read? ⟨"a"⟩ := by
  intro record stored wide headers runs
  have hrecord {value : Value} (hvalue : value.HasShape .exact)
      (hdepth : (Blob.ofRecord (record "y" value)).toJson.nesting ≤ Json.depthLimit) :
      (record "y" value).isEmpty = false ∧ (record "y" value).IsExact ∧
        (Blob.ofRecord (record "y" value)).toJson.nesting ≤ Json.depthLimit :=
    ⟨rfl, ⟨SortedMap.all_empty.insert hvalue, SortedMap.all_empty⟩, hdepth⟩
  have hnull := hrecord ⟨0, .null⟩ (by decide +kernel)
  have hreadable : ∀ store ∈ [stored, wide], ¬store.database.Unreadable ⟨"a"⟩ := by
    have hread : ∀ store ∈ [stored, wide],
        (store.database.read? ⟨"a"⟩).all Except.isOk = true := by decide +kernel
    rintro store hstore ⟨error, herror⟩
    have hok := hread store hstore
    rw [herror] at hok
    cases hok
  refine ⟨rfl, List.forall_mem_cons.2 ⟨⟨?_, ?_, ?_⟩, List.forall_mem_singleton.2 ⟨?_, ?_, ?_⟩⟩⟩
  · exact List.forall_mem_cons.2 ⟨hrecord ⟨1, .int 1⟩ (by decide +kernel),
      List.forall_mem_singleton.2 (hrecord ⟨1, .int 2⟩ (by decide +kernel))⟩
  · exact List.forall_mem_cons.2 ⟨hreadable stored List.mem_cons_self,
      List.forall_mem_singleton.2 (hreadable stored List.mem_cons_self)⟩
  · intro hsame
    let other : Value := .float ⟨0x3905B7A44EE17959⟩
    have hother := congrArg (fun read =>
      ((read.bind Except.toOption).bind (·.fields.find? "x")).map other.equals) hsame
    revert hother
    decide +kernel
  · exact fun r hr => List.eq_of_mem_replicate hr ▸ hnull
  · exact fun r hr => List.eq_of_mem_replicate hr ▸ hreadable wide (by simp)
  · -- the rows of the batch are too many for a statement, and the one merged record is not
    have hlaid : ((wide.merge ⟨1⟩ (List.replicate 5462 (record "y" .null)) headers
        .overwrite).state.database.read? ⟨"a"⟩).isNone = true := by decide +kernel
    have hnamed : (List.replicate 5462 (record "y" .null)).map Record.key ⊆ [⟨"a"⟩] := by
      rw [List.map_replicate]
      exact fun key hkey => List.mem_singleton.2 (List.eq_of_mem_replicate hkey)
    obtain ⟨written, hmerged, hwrote, -⟩ := merge_slow_eq ⟨1⟩
      (rfl : wide.database = ⟨some ⟨[], true⟩⟩) List.replicate_succ_ne_nil
      (rfl : headers.has Headers.doNotStore = false)
      (rfl : headers.has Headers.memoryCacheOnly = false)
      (fun r hr => List.eq_of_mem_replicate hr ▸ hnull.1)
      (fun r hr => List.eq_of_mem_replicate hr ▸ hreadable wide (by simp))
      (.mono (.one _) (Batch.length_distinct_le_of_subset hnamed))
    have hkey : (⟨"a"⟩ : Key) ∈ (List.replicate 5462 (record "y" .null)).map Record.key := by
      rw [List.map_replicate]
      exact List.mem_replicate.2 ⟨by decide, rfl⟩
    obtain ⟨row, hrow, -⟩ := hwrote.dates ⟨"a"⟩ hkey
    have hread : (⟨some written⟩ : Database).read? ⟨"a"⟩ = some row.decode :=
      congrArg (Option.map Row.decode) hrow
    intro hsame
    rw [hsame, hmerged, hread] at hlaid
    cases hlaid

end Ways

end Store
end RecordCache
