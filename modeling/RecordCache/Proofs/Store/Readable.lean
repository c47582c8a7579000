import RecordCache.Proofs.Chain.Trace
import RecordCache.Proofs.Database.Rows
import RecordCache.Proofs.Record.Shape
import RecordCache.Proofs.Store.Merge

/-!
# Rows that can be read back

A persistent tier writes more than it can read: a record that nests too deep, or holds a number that
is not finite, gets a row that no later statement can read. All other rows stay readable, whatever
is merged into them.

* `Row.IsReadable` is kept by both ways to write a row, `Row.updateRow_clean` for the fast one and
  `Store.mergeRows_clean` for the other;
* `Store.IsReadable` is kept by every operation, and no report speaks of a row that cannot be read;
* `Store.trace_readable_iff`: all rows can be read, in every run, exactly when every record merged
  has a blob that can be read.
-/

namespace RecordCache

/-- The row holds the blob of a record that can be read back. -/
def Row.IsReadable (row : Row) : Prop :=
  ∃ r : Record, r.Storable .finite ∧ row.blob = Blob.encode r

namespace Row

theorem IsReadable.parse? {row : Row} (h : row.IsReadable) :
    ∃ blob : Blob, Blob.parse? row.blob = some blob ∧
      ∀ key typeName, (blob.toRecord key typeName).Storable .stored := by
  obtain ⟨r, hr, hblob⟩ := h
  have hreadable := Record.storable_finite_iff.1 hr
  refine ⟨(Blob.ofRecord r).reread, ?_, Record.storable_reread hreadable⟩
  rw [hblob, Blob.encode, Blob.parse?_print, if_pos hreadable]

theorem IsReadable.decode {row : Row} (h : row.IsReadable) :
    ∃ r, row.decode = .ok r ∧ r.Storable .stored := by
  obtain ⟨blob, hparse, hstorable⟩ := h.parse?
  exact ⟨blob.toRecord row.key row.typeName, Row.decode_eq_ok.2 ⟨blob, hparse, rfl⟩,
    hstorable _ _⟩

theorem IsReadable.decode_clean (row : Row) (h : row.IsReadable) :
    Clean (Record.Storable .stored) row.decode := by
  obtain ⟨r, hdecode, hr⟩ := h.decode
  rw [hdecode]
  exact hr

/-- The row of a record that can be read back. -/
theorem isReadable_row {r : Record} (h : r.Storable .finite) (dates : WriteDates)
    (trackDates : Bool) : (dates.row trackDates r).IsReadable :=
  ⟨r, h, rfl⟩

theorem overlayBlob_clean {stored row : Row} (hstored : stored.IsReadable)
    (hrow : row.IsReadable) :
    Clean (fun blob => ∃ r : Record, r.Storable .finite ∧ blob = Blob.encode r)
      (overlayBlob stored.blob row.blob) := by
  obtain ⟨old, hold, holdStorable⟩ := hstored.parse?
  obtain ⟨top, htop, htopStorable⟩ := hrow.parse?
  have hbelow := (holdStorable row.key row.typeName).finite
  have habove := (htopStorable row.key row.typeName).finite
  rw [overlayBlob_eq_ok.2 ⟨old, top, hold, htop, rfl⟩]
  exact ⟨(old.overlay top).toRecord row.key row.typeName,
    ⟨hbelow.fields.overlay habove.fields,
      FieldMetadata.all_overlayAll hbelow.metadata habove.metadata⟩, rfl⟩

/-- A readable row stays readable when another is written into its place. -/
theorem updateRow_clean (mode : WriteMode) (stored row : Row) (hstored : stored.IsReadable)
    (hrow : row.IsReadable) : Clean IsReadable (Table.updateRow mode stored row) := by
  rw [Table.updateRow]
  cases mode.overlay with
  | true => exact (overlayBlob_clean hstored hrow).bind fun _ hblob => hblob
  | false => exact hrow

end Row

namespace Store

/-- Every row of the table can be read back. -/
def IsReadable (s : Store) : Prop := s.database.Rows Row.IsReadable

/-- The outcome leaves every row readable, and reports no row that cannot be read. -/
structure Spares {α : Type} (outcome : Outcome Store α) : Prop where
  state : outcome.state.IsReadable
  reports : ∀ report ∈ outcome.reports, ∀ key reason,
    report.error ≠ .storage (.corruptedRecord key reason)

theorem spares_unchanged {α : Type} {s : Store} (h : s.IsReadable) (value : α) :
    Spares ⟨value, s, []⟩ :=
  ⟨h, List.forall_mem_nil _⟩

/-- A transaction that keeps the rows readable. -/
theorem run_spares {α : Type} {s : Store} {operation : String} {fallback : α}
    {transaction : Database → Except StorageError (α × Database)} (h : s.IsReadable)
    (hclean : Clean (fun result : α × Database => result.2.Rows Row.IsReadable)
      (transaction s.database)) : Spares (s.run operation fallback transaction) := by
  rw [run]
  split
  · rename_i value database hresult
    rw [hresult] at hclean
    exact ⟨hclean, List.forall_mem_nil _⟩
  · rename_i error hresult
    rw [hresult] at hclean
    refine ⟨h, fun report hreport key reason hcorrupted => ?_⟩
    rw [List.mem_singleton.1 hreport] at hcorrupted
    cases hcorrupted
    cases hclean

variable {s : Store} {config : StoreConfig} {db : Database} {records : List Record}

theorem load_spares (h : s.IsReadable) (keys : List Key) (headers : Headers) :
    Spares (s.load keys headers) := by
  rw [load]
  split
  · exact spares_unchanged h []
  · refine run_spares h ?_
    refine (Database.select_clean Row.IsReadable.decode_clean _ _ h).bind fun records _ => ?_
    dsimp only
    split
    · exact ((Database.deleteKeys_clean _ _ h).map fun _ hrows => hrows).bind fun _ hrows => hrows
    · exact h

/-- The merging of records keeps the rows readable: that of blobs in the table … -/
theorem mergeFast_clean (dates : WriteDates) (hrecords : ∀ r ∈ records, r.Storable .finite)
    (h : db.Rows Row.IsReadable) :
    Clean (fun result : NameSet × Database => result.2.Rows Row.IsReadable)
      (mergeFast config dates records db) := by
  refine (Database.upsert_clean _ ?_ (Row.updateRow_clean _) h).bind fun _ hrows => hrows
  exact List.forall_mem_map.2 fun r hr => Row.isReadable_row (hrecords r hr) _ _

theorem mergeOne_storable {headers : Headers} {merger : Merger}
    (hmerger : merger ∈ Merger.fieldwise) {progress : Progress} {incoming : Record}
    (hcurrent : progress.current.All (Record.Storable .finite))
    (hdirty : progress.dirty.All (Record.Storable .finite))
    (hincoming : incoming.Storable .finite) :
    (mergeOne headers merger progress incoming).current.All (Record.Storable .finite) ∧
      (mergeOne headers merger progress incoming).dirty.All (Record.Storable .finite) := by
  rw [mergeOne]
  cases hfind : progress.current.find? incoming.key with
  | none => exact ⟨hcurrent.insert hincoming, hdirty.insert hincoming⟩
  | some existing =>
    have hmerged : (merger.merge existing incoming headers).record.Storable .finite :=
      Merger.all_merge hmerger (fun _ => Nat.zero_le _) (fun _ => Nat.zero_le _)
        (hcurrent _ _ hfind) hincoming
    dsimp only
    split
    · exact ⟨hcurrent, hdirty⟩
    · exact ⟨hcurrent.insert hmerged, hdirty.insert hmerged⟩

/-- By induction the records of a batch. -/
theorem foldl_storable (headers : Headers) {merger : Merger} (hmerger : merger ∈ Merger.fieldwise)
    (hrecords : ∀ r ∈ records, r.Storable .finite) {stored : SortedMap Key Record}
    (hstored : stored.All (Record.Storable .finite)) :
    (records.foldl (mergeOne headers merger) ⟨stored, ∅, ∅⟩).current.All
        (Record.Storable .finite) ∧
      (records.foldl (mergeOne headers merger) ⟨stored, ∅, ∅⟩).dirty.All
        (Record.Storable .finite) :=
  List.foldlRecOn (motive := fun progress : Progress =>
    progress.current.All (Record.Storable .finite) ∧ progress.dirty.All (Record.Storable .finite))
    records (mergeOne headers merger) ⟨hstored, SortedMap.all_empty⟩
    fun _ hall r hr => mergeOne_storable hmerger hall.1 hall.2 (hrecords r hr)

/-- … and that of records with those of their rows. -/
theorem mergeRows_clean (dates : WriteDates) {headers : Headers} {merger : Merger}
    (hmerger : merger ∈ Merger.fieldwise) (hrecords : ∀ r ∈ records, r.Storable .finite)
    (h : db.Rows Row.IsReadable) :
    Clean (fun result : NameSet × Database => result.2.Rows Row.IsReadable)
      (mergeRows config dates records headers merger db) := by
  refine (Database.select_clean Row.IsReadable.decode_clean _ _ h).bind fun stored hstored => ?_
  have hbyKey : (Batch.byKey stored).All (Record.Storable .finite) :=
    SortedMap.all_ofList (List.forall_mem_map.2 fun r hr => (hstored r hr).finite)
  have hprogress := foldl_storable headers hmerger hrecords hbyKey
  refine (Database.upsert_clean _ ?_ (Row.updateRow_clean _) h).bind fun _ hrows => hrows
  exact List.forall_mem_map.2 fun r hr =>
    Row.isReadable_row (SortedMap.all_iff_values.1 hprogress.2 r hr) _ _

theorem merge_spares (h : s.IsReadable) (now : Instant) (headers : Headers) {merger : Merger}
    (hmerger : merger ∈ Merger.fieldwise) (hrecords : ∀ r ∈ records, r.Storable .finite) :
    Spares (s.merge now records headers merger) := by
  have hstamped : ∀ r ∈ records.map (Record.stamped s.config.trackDates headers),
      r.Storable .finite :=
    List.forall_mem_map.2 fun r hr => (hrecords r hr).stamped fun _ => Nat.zero_le _
  rw [merge]
  split
  · exact spares_unchanged h ∅
  · refine run_spares h ?_
    dsimp only [mergeIn]
    split
    · exact mergeFast_clean _ hstamped h
    · exact mergeRows_clean _ hmerger hstamped h

theorem removeKeys_spares (h : s.IsReadable) (keys : List Key) (cascade : Bool) :
    Spares (s.removeKeys keys cascade) := by
  dsimp only [removeKeys]
  refine run_spares h ?_
  cases cascade with
  | true =>
    exact (Database.reachable_clean Row.IsReadable.decode_clean _ _ h).bind fun _ _ =>
      Database.deleteKeys_clean _ _ h
  | false => exact Database.deleteKeys_clean _ _ h

theorem removeMatching_spares (h : s.IsReadable) (pattern : Pattern) :
    Spares (s.removeMatching pattern) :=
  run_spares h (Database.deleteMatching_clean _ h)

theorem removeTypes_spares (h : s.IsReadable) (types : List String) :
    Spares (s.removeTypes types) := by
  rw [removeTypes]
  split
  · exact spares_unchanged h 0
  · exact run_spares h (Database.deleteTypes_clean _ _ h)

theorem clear_spares (h : s.IsReadable) : Spares s.clear :=
  run_spares h ((Database.deleteAll_clean h).bind fun _ hrows => hrows)

theorem dump_spares (h : s.IsReadable) : Spares s.dump :=
  run_spares h ((Database.selectAll_clean Row.IsReadable.decode_clean h).bind fun _ _ => h)

theorem trim_spares (h : s.IsReadable) (maxSize : Nat) (factor : Binary64) (sizes : FileSizes) :
    Spares (s.trim maxSize factor sizes) := by
  refine run_spares h ?_
  rw [trimIn]
  split
  · exact h
  · have hcount : Clean (fun _ : Nat => True) s.database.count :=
      (Database.requireTable_clean h).map fun _ _ => trivial
    exact hcount.bind fun n _ => (Database.deleteOldest_clean _ h).bind fun _ hrows => hrows

theorem isReadable_new (config : StoreConfig) : (new config).IsReadable := by
  rintro _ ⟨⟩ row hrow
  cases hrow

/-- After a single record is merged into an empty table, its key has the row of it. -/
theorem merge_new (config : StoreConfig) (now : Instant) (r : Record) :
    ∃ written : Table,
      ((new config).merge now [r] Headers.none Merger.overwrite).state =
        ⟨config, ⟨some written⟩⟩ ∧
      written.read? r.key =
        some ((WriteDates.ofHeaders now Headers.none).row config.trackDates r).decode := by
  have hnone : Table.read? ⟨[], config.trackDates⟩ r.key = (none : Option Record).map .ok := rfl
  obtain ⟨written, hstate, -, hread⟩ := merge_one (s := new config) now rfl hnone (.inl rfl)
  refine ⟨written, hstate, ?_⟩
  rw [hread, if_pos rfl]
  rfl

end Store

namespace Chain

/-- The command is no merge, or merges admitted records field by field. -/
def Merges (A : Record → Prop) : Command → Prop
  | .merge records _ merger => merger ∈ Merger.fieldwise ∧ ∀ r ∈ records, A r
  | _ => True

/-- Every row of the persistent tier can be read. -/
def RowsDecode (chain : Chain) : Prop :=
  ∀ s table, chain.store? = some s → s.database.table = some table →
    ∀ row ∈ table.rows, ∃ r, row.decode = .ok r

/-- Every row can be read after the call, and no report speaks of one that cannot. -/
def Spares {α : Type} (outcome : Outcome Chain α) : Prop :=
  outcome.state.RowsDecode ∧ ∀ report ∈ outcome.reports, ∀ key reason,
    report.error ≠ .storage (.corruptedRecord key reason)

theorem spares_of_store {α β : Type} {outcome : Outcome Store α} (h : Store.Spares outcome)
    (f : α → β) : Spares ((outcome.mapState store).mapValue f) := by
  refine ⟨?_, h.reports⟩
  rintro s table ⟨⟩ htable row hrow
  obtain ⟨r, hdecode, -⟩ := (h.state table htable row hrow).decode
  exact ⟨r, hdecode⟩

/-- One command, given to a persistent tier. -/
theorem run_spares {s : Store} (h : s.IsReadable) (now : Instant) {command : Command}
    (hcommand : Merges (fun r => (Blob.ofRecord r).IsReadable) command) :
    ∃ (α : Type) (f : α → Reply) (outcome : Outcome Store α), Store.Spares outcome ∧
      (store s).run now command = (outcome.mapState store).mapValue f := by
  cases command with
  | load key headers =>
    exact ⟨_, fun records => .record records.head?, _, Store.load_spares h [key] headers, rfl⟩
  | loadAll keys headers => exact ⟨_, _, _, Store.load_spares h keys headers, rfl⟩
  | merge records headers merger =>
    have hstorable : ∀ r ∈ records, r.Storable .finite := fun r hr =>
      Record.storable_finite_iff.2 (hcommand.2 r hr)
    exact ⟨_, _, _, Store.merge_spares h now headers hcommand.1 hstorable, rfl⟩
  | remove key cascade =>
    exact ⟨_, fun n => .flag (0 < n), _, Store.removeKeys_spares h [key] cascade, rfl⟩
  | removeAll keys cascade => exact ⟨_, _, _, Store.removeKeys_spares h keys cascade, rfl⟩
  | removeMatching source =>
    cases hparse : Pattern.parse source with
    | error error =>
      refine ⟨_, fun _ => .refused error, _, Store.spares_unchanged h (), ?_⟩
      rw [run, removeMatching, hparse]
      rfl
    | ok pattern =>
      refine ⟨_, .count, _, Store.removeMatching_spares h pattern, ?_⟩
      rw [run, removeMatching, hparse]
      rfl
  | removeTypes types => exact ⟨_, _, _, Store.removeTypes_spares h types, rfl⟩
  | clear => exact ⟨_, fun _ => .done, _, Store.clear_spares h, rfl⟩
  | dump =>
    exact ⟨_, fun records => .dump (SortedMap.ofList [(Store.tierName, records)]), _,
      Store.dump_spares h, rfl⟩
  | trim maxSize factor sizes => exact ⟨_, _, _, Store.trim_spares h maxSize factor sizes, rfl⟩
  | name => exact ⟨_, fun _ => .name Store.tierName, _, Store.spares_unchanged h (), rfl⟩

/-- **Readable rows.** In every run from an empty table all rows can be read, and no report speaks
of one that cannot, exactly when every record that may be merged nests no deeper than the reader
goes and holds no number that is not finite. -/
theorem trace_readable_iff (config : StoreConfig) (A : Record → Prop) :
    (∀ commands : List (Instant × Command), (∀ timed ∈ commands, Merges A timed.2) →
      ∀ outcome ∈ (store (Store.new config)).trace commands, Spares outcome) ↔
      ∀ r, A r → (Blob.ofRecord r).IsReadable := by
  constructor
  · intro hall r hr
    let command := Command.merge [r] Headers.none Merger.overwrite
    have hadmitted : ∀ timed ∈ [((⟨0⟩ : Instant), command)], Merges A timed.2 := by
      intro timed htimed
      rw [List.mem_singleton.1 htimed]
      exact ⟨List.mem_cons_self, fun incoming hincoming => List.mem_singleton.1 hincoming ▸ hr⟩
    obtain ⟨hrows, -⟩ := hall _ hadmitted _ List.mem_cons_self
    obtain ⟨written, hstate, hread⟩ := Store.merge_new config ⟨0⟩ r
    obtain ⟨row, hrow, hdecode⟩ := Option.map_eq_some_iff.1 hread
    have hstore : ((store (Store.new config)).run ⟨0⟩ command).state.store? =
        some ⟨config, ⟨some written⟩⟩ := congrArg some hstate
    obtain ⟨decoded, hok⟩ := hrows _ written hstore rfl row (List.mem_of_find?_eq_some hrow)
    by_contra hunreadable
    rw [hdecode, WriteDates.decode_row, if_neg hunreadable] at hok
    cases hok
  · intro hall commands hadmitted
    refine forall_trace (P := fun chain => ∃ s, chain = store s ∧ s.IsReadable) (A := Merges A) ?_
      hadmitted ⟨_, rfl, Store.isReadable_new config⟩
    rintro _ now command hcommand ⟨s, rfl, hs⟩
    have hreadable : Merges (fun r => (Blob.ofRecord r).IsReadable) command := by
      cases command with
      | merge records headers merger => exact ⟨hcommand.1, fun r hr => hall r (hcommand.2 r hr)⟩
      | _ => trivial
    obtain ⟨α, f, outcome, houtcome, hrun⟩ := run_spares hs now hreadable
    rw [hrun]
    exact ⟨⟨_, rfl, houtcome.state⟩, spares_of_store houtcome f⟩

end Chain
end RecordCache
