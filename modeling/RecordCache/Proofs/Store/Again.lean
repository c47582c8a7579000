import RecordCache.Proofs.Merge.Absorb
import RecordCache.Proofs.Store.Committed
import RecordCache.Proofs.Store.Readable
import RecordCache.Proofs.Store.Written

/-!
# Merging a batch into the table twice

The first call leaves under each key of the batch a record with nothing left to take, or one without
fields that was not written because the incoming one had none either. The second call then tells no
change. It may write the records of the batch's keys once more, as they were read; that changes a
record only if it holds a floating-point number which is not read back as it is.

* `Database.upsert_replace_ok`: whether rows can be written in place of others depends on their
  number, so that a call that fails once fails again (`Store.mergeRows_dates`);
* `Store.Settled` says that merging a record once more has no effect, `settled_foldl` that every
  record of a batch is settled afterwards, and `Progress.Unmoved.foldl` what merging it again does;
* `Store.settled_mergeRows`, `mergeRows_settled`: the two calls as statements on the table;
* `Store.merge_twice`: one call after the other.
-/

namespace RecordCache

/-! ### Rows of the same number -/

namespace Database

variable {mode : WriteMode} {db db' : Database} {limit : Nat} {rows rows' : List Row}

/-- In place of others rows are written unless they bind too many parameters. -/
theorem upsertChunk_replace (hmode : mode.overlay = false) (table : Table) (rows : List Row) :
    ∃ written, upsertChunk mode ⟨some table⟩ rows =
      (fun _ => ⟨some written⟩) <$> bind (rows.length * columns mode) := by
  obtain ⟨written, hwritten, -⟩ := Table.foldlM_upsert_replace hmode rows table
  refine ⟨written, ?_⟩
  change (bind _ >>= fun _ => rows.foldlM (Table.upsert mode) table >>= fun _ => _) = _
  rw [hwritten]
  cases bind (rows.length * columns mode) <;> rfl

/-- By induction on the chunks, which are of the same lengths in both lists. -/
theorem foldlM_upsertChunk_ok (hmode : mode.overlay = false) (size : Nat)
    (hlength : rows.length = rows'.length) {table table' : Table}
    (h : (Batch.chunks size rows).foldlM (upsertChunk mode) ⟨some table⟩ = .ok db) :
    ∃ db', (Batch.chunks size rows').foldlM (upsertChunk mode) ⟨some table'⟩ = .ok db' := by
  induction rows using Batch.chunks.induct size generalizing rows' table table' with
  | case1 =>
    rw [List.length_eq_zero_iff.1 hlength.symm, Batch.chunks]
    exact ⟨_, rfl⟩
  | case2 row rows ih =>
    cases rows' with
    | nil => cases hlength
    | cons row' rows' =>
      rw [List.length_cons, List.length_cons, Nat.add_right_cancel_iff] at hlength
      rw [Batch.chunks, List.foldlM_cons] at h ⊢
      obtain ⟨first, hfirst, h⟩ := ok_of_bind h
      have hchunk : (row' :: rows'.take (size - 1)).length =
          (row :: rows.take (size - 1)).length := by
        simp [hlength]
      obtain ⟨written, hwritten⟩ := upsertChunk_replace hmode table (row :: rows.take (size - 1))
      obtain ⟨written', hwritten'⟩ :=
        upsertChunk_replace hmode table' (row' :: rows'.take (size - 1))
      rw [hchunk] at hwritten'
      rw [hwritten] at hfirst
      rw [hwritten']
      obtain ⟨_, hbind, rfl⟩ := ok_of_map hfirst
      rw [hbind]
      exact ih (by simp [hlength]) h

theorem upsert_replace_ok (hmode : mode.overlay = false) (hlength : rows.length = rows'.length)
    (h : db.upsert mode limit rows = .ok db') : ∃ db'', db.upsert mode limit rows' = .ok db'' := by
  rcases foldlM_of_upsert h with ⟨rfl, rfl⟩ | ⟨table, written, rfl, -, -⟩
  · rw [List.length_eq_zero_iff.1 hlength.symm]
    exact ⟨_, h⟩
  · exact foldlM_upsertChunk_ok hmode _ hlength h

end Database

namespace Store

variable {headers : Headers} {records : List Record} {config : StoreConfig}
  {dates dates' : WriteDates} {db db' : Database} {paths : NameSet}

/-- Whether a batch is merged or refused does not depend on the dates. -/
theorem mergeRows_dates {merger : Merger} {result : NameSet × Database}
    (h : mergeRows config dates records headers merger db = .ok result) (dates' : WriteDates) :
    ∃ result', mergeRows config dates' records headers merger db = .ok result' := by
  obtain ⟨found, hselect, h⟩ := ok_of_bind h
  obtain ⟨written, hupsert, -⟩ := ok_of_bind h
  let progress := records.foldl (mergeOne headers merger) ⟨Batch.byKey found, ∅, ∅⟩
  obtain ⟨written', hwritten'⟩ : ∃ written', db.upsert ⟨false, config.trackDates⟩
      config.maxParameters (progress.dirty.values.map (dates'.row config.trackDates)) =
        .ok written' :=
    Database.upsert_replace_ok rfl (by rw [List.length_map, List.length_map]) hupsert
  refine ⟨(progress.changed, written'), ?_⟩
  unfold mergeRows
  rw [hselect]
  change (Database.upsert _ _ _ _ >>= fun _ => _) = _
  rw [hwritten']
  rfl

/-! ### Records with nothing left to merge -/

/-- Merging a record into what is stored has no effect: there is nothing left to take, or neither
has a field, and then nothing is written. -/
def Settled (headers : Headers) (current : Option Record) (r : Record) : Prop :=
  ∃ stored, current = some stored ∧
    (stored.Absorbs r headers ∨ stored.isEmpty = true ∧ r.isEmpty = true)

/-- A record of a batch is settled once it was merged. -/
theorem settled_mergeOne {progress : Progress} (hkeyed : Batch.Keyed progress.current) {r : Record}
    (hexact : r.fields.All (Value.HasShape .exact)) :
    Settled headers ((mergeOne headers .overwrite progress r).current.find? r.key) r := by
  rw [mergeOne]
  cases hfind : progress.current.find? r.key with
  | none => exact ⟨r, SortedMap.find?_insert_self _ _ _, .inl (Record.absorbs_self hexact headers)⟩
  | some existing =>
    have hkey : (Merger.overwrite.merge existing r headers).record.key = r.key :=
      hkeyed r.key existing hfind
    dsimp only
    split
    · rename_i hempty
      exact ⟨existing, hfind, .inr (Merger.isEmpty_overwrite_iff.1 hempty)⟩
    · refine ⟨_, ?_, .inl (Record.absorbs_merge existing hexact)⟩
      rw [hkey]
      exact SortedMap.find?_insert_self _ _ _

/-- So are all records of a batch: no later one has the same key. -/
theorem settled_foldl {stored : Contents} {progress : Progress} (hcovers : progress.Covers stored)
    (hkeyed : Batch.Keyed progress.current) (hdistinct : (records.map Record.key).Nodup)
    (hexact : ∀ r ∈ records, r.fields.All (Value.HasShape .exact)) : ∀ r ∈ records,
      Settled headers
        ((records.foldl (mergeOne headers .overwrite) progress).current.find? r.key) r := by
  let Kept (progress : Progress) : Prop :=
    progress.Covers stored ∧ Batch.Keyed progress.current
  have hmerging (progress : Progress) (r : Record) (h : Kept progress) :
      Contents.Merging headers .overwrite progress.result r
          (mergeOne headers .overwrite progress r).result ∧
        (mergeOne headers .overwrite progress r).Covers stored :=
    Progress.mergeOne_merging r h.1
  exact Batch.foldl_distinct (mergeOne headers .overwrite) (fun progress => progress.current.find?)
    Kept (Settled headers)
    (fun progress r h => ⟨(hmerging progress r h).2, (hmerging progress r h).1.keyed h.2⟩)
    (fun progress r hr h => settled_mergeOne h.2 (hexact r hr))
    (fun progress r key h hkey => (hmerging progress r h).1.find? .overwrite h.2 hkey)
    hdistinct ⟨hcovers, hkeyed⟩

/-- Nothing was told, nothing has changed, and what is to be written is what is stored. -/
structure Progress.Unmoved (stored : Contents) (progress : Progress) : Prop where
  changed : progress.changed = ∅
  current : progress.current = stored
  dirty : ∀ key r, progress.dirty.find? key = some r → stored.find? key = some r

/-- Merging a settled record once more. -/
theorem Progress.Unmoved.mergeOne {stored : Contents} {progress : Progress}
    (h : progress.Unmoved stored) (hkeyed : Batch.Keyed stored) {r : Record}
    (hsettled : Settled headers (stored.find? r.key) r) :
    (mergeOne headers .overwrite progress r).Unmoved stored := by
  obtain ⟨existing, hfind, hsettled⟩ := hsettled
  have hkey : existing.key = r.key := hkeyed r.key existing hfind
  have hput (c : Contents) (key : Key) : (c.insert existing.key existing).find? key =
      if key = r.key then stored.find? key else c.find? key := by
    rw [SortedMap.find?_insert_eq, hkey]
    split
    · rename_i hsame
      rw [hsame, hfind]
    · rfl
  rw [Store.mergeOne, h.current, hfind]
  dsimp only
  rcases hsettled with habsorbs | hempty
  · -- what is stored is to be written again, unless it has no fields
    rw [habsorbs.merge_eq]
    dsimp only
    split
    · exact ⟨by rw [h.changed]; rfl, rfl, h.dirty⟩
    · refine ⟨by rw [h.changed]; rfl, SortedMap.ext fun key => ?_, fun key r' hr' => ?_⟩
      · rw [hput, ite_self]
      · rw [hput] at hr'
        split at hr'
        · exact hr'
        · exact h.dirty key r' hr'
  · -- a record without fields tells of none
    have hnone : (Merger.overwrite.merge existing r headers).changed = ∅ := by
      refine SortedSet.ext fun path => Bool.eq_false_iff.2 fun htold => ?_
      obtain ⟨field, value, hvalue, -⟩ := Merger.contains_changed_overwrite.1 htold
      rw [SortedMap.isEmpty_iff.1 hempty.2 field] at hvalue
      cases hvalue
    rw [if_pos (Merger.isEmpty_overwrite_iff.2 hempty), hnone]
    exact ⟨by rw [h.changed]; rfl, rfl, h.dirty⟩

theorem Progress.Unmoved.foldl {stored : Contents} (hkeyed : Batch.Keyed stored)
    (hsettled : ∀ r ∈ records, Settled headers (stored.find? r.key) r) :
    (records.foldl (Store.mergeOne headers .overwrite) ⟨stored, ∅, ∅⟩).Unmoved stored :=
  List.foldlRecOn records _ ⟨rfl, rfl, fun _ _ hnone => absurd hnone.symm (Option.some_ne_none _)⟩
    fun _ h r hr => h.mergeOne hkeyed (hsettled r hr)

/-! ### The two calls -/

theorem storable_readable (db : Database) : db.readable.All (Record.Storable .stored) := by
  intro key r hfind
  rw [Database.find?_readable, Database.read?] at hfind
  obtain ⟨table, -, hread⟩ := Option.bind_eq_some_iff.1 hfind
  obtain ⟨row, -, hdecode⟩ := Option.map_eq_some_iff.1 hread
  exact Row.storable_of_decode hdecode

/-- Reading back keeps a record settled. -/
theorem Settled.reread {stored r : Record} (h : Settled headers (some stored) r)
    (hexact : r.Exact) : Settled headers (some stored.reread) r := by
  obtain ⟨_, hsame, h⟩ := h
  cases hsame
  refine ⟨_, rfl, h.imp (·.reread hexact) (And.imp_left fun hempty => ?_)⟩
  have hfields : stored.reread.fields = stored.fields.mapValues Value.reread := rfl
  rw [Record.isEmpty, SortedMap.isEmpty_iff] at hempty ⊢
  intro field
  rw [hfields, SortedMap.find?_mapValues, hempty]
  rfl

/-- **The first call** leaves every record of the batch settled. -/
theorem settled_mergeRows (hdistinct : (records.map Record.key).Nodup)
    (hexact : ∀ r ∈ records, r.Exact)
    (h : mergeRows config dates records headers .overwrite db = .ok (paths, db')) :
    ∀ r ∈ records, Settled headers (db'.readable.find? r.key) r := by
  obtain ⟨-, stored, hstored, -, -, hlast⟩ := mergeRows_ok (fun _ _ => rfl) h
  let progress := records.foldl (mergeOne headers .overwrite) ⟨stored, ∅, ∅⟩
  have hstart : Progress.Covers stored ⟨stored, ∅, ∅⟩ := fun _ => rfl
  have hcovers : progress.Covers stored := (Progress.foldl_batched _ records hstart).2
  have hsub (key : Key) (r : Record) (hr : stored.find? key = some r) :
      db.readable.find? key = some r := by
    rw [hstored] at hr
    exact (Option.ite_none_right_eq_some.1 hr).2
  have hstorable : progress.dirty.All (Record.Storable .finite) :=
    (foldl_storable headers (List.mem_cons_self : Merger.overwrite ∈ Merger.fieldwise)
      (fun r hr => (hexact r hr).storable)
      fun key r hr => (storable_readable db key r (hsub key r hr)).finite).2
  have hsettled : ∀ r ∈ records, Settled headers (progress.current.find? r.key) r :=
    settled_foldl hstart (fun key r hr => Database.keyed_readable db key r (hsub key r hr))
      hdistinct fun r hr => (hexact r hr).fields.imp fun _ hvalue => ⟨_, hvalue⟩
  intro r hr
  have hcurrent := hsettled r hr
  rw [hcovers r.key] at hcurrent
  have hread := hlast r.key
  change db'.read? r.key = ((progress.dirty.find? r.key).map _).or _ at hread
  rw [Database.find?_readable_eq, hread]
  cases hdirty : progress.dirty.find? r.key with
  | none =>
    -- a record that is not written was stored before
    rw [hdirty, Option.none_or] at hcurrent
    obtain ⟨existing, hexisting, -⟩ := id hcurrent
    rw [Option.map_none, Option.none_or, ← Database.find?_readable_eq, hsub _ _ hexisting,
      ← hexisting]
    exact hcurrent
  | some merged =>
    rw [hdirty] at hcurrent
    rw [Option.map_some, (hstorable r.key merged hdirty).decode_row]
    exact hcurrent.reread (hexact r hr)

/-- **The second call** tells nothing. It leaves a record as it is, or writes it once more as it was
read, which changes it only if it holds a floating-point number. -/
theorem mergeRows_settled
    (hsettled : ∀ r ∈ records, Settled headers (db.readable.find? r.key) r)
    (h : mergeRows config dates records headers .overwrite db = .ok (paths, db')) :
    paths = ∅ ∧ ∀ key, db'.read? key = db.read? key ∨
      key ∈ records.map Record.key ∧ ∃ r, db.read? key = some (.ok r) ∧ ¬r.IsExact ∧
        db'.read? key = some (.ok r.reread) := by
  obtain ⟨-, stored, hstored, hpaths, hkeyed, hlast⟩ := mergeRows_ok (fun _ _ => rfl) h
  have hsub (key : Key) (r : Record) (hr : stored.find? key = some r) :
      key ∈ records.map Record.key ∧ db.readable.find? key = some r := by
    rw [hstored] at hr
    exact Option.ite_none_right_eq_some.1 hr
  have hunmoved : (records.foldl (mergeOne headers .overwrite) ⟨stored, ∅, ∅⟩).Unmoved stored := by
    refine .foldl (fun key r hr => Database.keyed_readable db key r (hsub key r hr).2) ?_
    intro r hr
    rw [hstored, if_pos (List.mem_map_of_mem hr)]
    exact hsettled r hr
  refine ⟨hpaths.symm.trans hunmoved.changed, fun key => ?_⟩
  rw [hlast]
  cases hdirty : (records.foldl (mergeOne headers .overwrite) ⟨stored, ∅, ∅⟩).dirty.find? key with
  | none => exact .inl rfl
  | some r =>
    obtain ⟨hkey, hfind⟩ := hsub key r (hunmoved.dirty key r hdirty)
    have hstorable := storable_readable db key r hfind
    have hread := Database.find?_readable.1 hfind
    have hwritten : ((dates.row config.trackDates r).decode) = .ok r.reread :=
      hstorable.finite.decode_row dates config.trackDates
    rw [Option.map_some, hwritten, hread]
    by_cases hexact : r.IsExact
    · rw [hstorable.reread_self hexact]
      exact .inl rfl
    · exact .inr ⟨hkey, r, rfl, hexact, rfl⟩

/-- A batch that is merged after reading the rows. -/
theorem merge_eq_mergeRows (s : Store) (now : Instant)
    (hskip : (headers.has Headers.doNotStore || records.isEmpty ||
      headers.has Headers.memoryCacheOnly) = false)
    (herrors : headers.has Headers.errorsReplaceCachedValues = false) :
    s.merge now records headers .overwrite = s.run "merge_records" ∅ (mergeRows s.config
      (WriteDates.ofHeaders now headers) (s.incoming records headers) headers .overwrite) := by
  rw [s.merge_stored now _ hskip]
  unfold mergeIn
  rw [herrors]
  rfl

/-- What a call leaves of a store in which the batch is settled. -/
theorem merge_settled (s : Store) (now : Instant)
    (herrors : headers.has Headers.errorsReplaceCachedValues = false)
    (hsettled : ∀ r ∈ s.incoming records headers,
      Settled headers (s.database.readable.find? r.key) r) :
    let outcome := s.merge now records headers .overwrite
    outcome.value = ∅ ∧ ∀ key, outcome.state.database.read? key = s.database.read? key ∨
      key ∈ records.map Record.key ∧ ∃ r, s.database.read? key = some (.ok r) ∧ ¬r.IsExact ∧
        outcome.state.database.read? key = some (.ok r.reread) := by
  cases hskip : (headers.has Headers.doNotStore || records.isEmpty ||
      headers.has Headers.memoryCacheOnly) with
  | true =>
    rw [merge_skipped now _ hskip]
    exact ⟨rfl, fun _ => .inl rfl⟩
  | false =>
    have hkeys := s.keys_incoming records headers
    rw [merge_eq_mergeRows s now hskip herrors]
    unfold run
    cases hmerge : mergeRows s.config (WriteDates.ofHeaders now headers)
        (s.incoming records headers) headers .overwrite s.database with
    | error error => exact ⟨rfl, fun _ => .inl rfl⟩
    | ok result =>
      obtain ⟨hnone, hread⟩ := mergeRows_settled hsettled hmerge
      rw [hkeys] at hread
      exact ⟨hnone, hread⟩

/-- **Merging into the table again.** The second time a batch of distinct keys without
floating-point numbers tells no change, and leaves every stored record that holds none as it is. -/
theorem merge_twice (s : Store) (now₁ now₂ : Instant)
    (herrors : headers.has Headers.errorsReplaceCachedValues = false)
    (hdistinct : (records.map Record.key).Nodup) (hexact : ∀ r ∈ records, r.Exact) :
    let once := s.merge now₁ records headers .overwrite
    let twice := once.state.merge now₂ records headers .overwrite
    twice.value = ∅ ∧ ∀ key,
      twice.state.database.read? key = once.state.database.read? key ∨
      key ∈ records.map Record.key ∧ ∃ r, once.state.database.read? key = some (.ok r) ∧
        ¬r.IsExact ∧ twice.state.database.read? key = some (.ok r.reread) := by
  cases hskip : (headers.has Headers.doNotStore || records.isEmpty ||
      headers.has Headers.memoryCacheOnly) with
  | true =>
    intro once twice
    have htwice : twice = ⟨∅, once.state, []⟩ := merge_skipped now₂ _ hskip
    rw [htwice]
    exact ⟨rfl, fun _ => .inl rfl⟩
  | false =>
    rw [merge_eq_mergeRows s now₁ hskip herrors]
    unfold run
    cases hfirst : mergeRows s.config (WriteDates.ofHeaders now₁ headers)
        (s.incoming records headers) headers .overwrite s.database with
    | error error =>
      -- what failed once fails again, and the table is as it was
      dsimp only
      rw [merge_eq_mergeRows s now₂ hskip herrors]
      unfold run
      cases hsecond : mergeRows s.config (WriteDates.ofHeaders now₂ headers)
          (s.incoming records headers) headers .overwrite s.database with
      | error error => exact ⟨rfl, fun _ => .inl rfl⟩
      | ok result =>
        obtain ⟨result', hagain⟩ := mergeRows_dates hsecond (WriteDates.ofHeaders now₁ headers)
        rw [hagain] at hfirst
        cases hfirst
    | ok result =>
      have hkeys := s.keys_incoming records headers
      have hincoming : ∀ r ∈ s.incoming records headers, r.Exact :=
        List.forall_mem_map.2 fun r hr =>
          (hexact r hr).stamped fun _ => ⟨.integer _, Nat.zero_le _⟩
      exact merge_settled { s with database := result.2 } now₂ herrors
        (settled_mergeRows (hkeys ▸ hdistinct) hincoming hfirst)

end Store
end RecordCache
