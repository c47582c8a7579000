import RecordCache.Proofs.Chain.Alone
import RecordCache.Proofs.Chain.Sound
import RecordCache.Proofs.Memory.Live
import RecordCache.Proofs.Store.Committed

/-!
# Nothing changes silently

What a merge returns is all that the watchers of a cache hear of it. A tier by itself tells every
field whose value is another one afterwards, however often the batch names a key, and whether fields
were put, kept, merged or laid over each other; it tells nothing but fields of the batch. The plain
merger, where rows are read before they are written, tells no field that stayed as it was.

* `Memory.merge_told`, `Store.merge_told`: each tier;
* `Chain.merge_tells_every_change`: both, as calls of a chain.
-/

namespace RecordCache

variable {headers : Headers} {merger : Merger} {records : List Record} {now : Instant}

/-- A memory tier that evicts nothing. -/
theorem Memory.merge_told {m : Memory} (hm : m.Sound) (hmerger : merger.ByFields)
    (hrecords : ∀ r ∈ records, r.fields.All (Value.HasShape .exact))
    (hexact : ∀ r ∈ records, ∀ stored, (m.live now).find? r.key = some stored →
      stored.fields.All (Value.HasShape .exact))
    (hroom : (m.merge now records headers merger).2.lru.evictions = m.lru.evictions) :
    let told := (m.merge now records headers merger).1
    let after := (m.merge now records headers merger).2.live now
    Contents.Told records told (m.live now) after ∧
      (merger = .overwrite → (records.map Record.key).Nodup →
        Contents.ToldOnly records told (m.live now) after) := by
  have hmerged := (merge_live now headers merger hm.valid hm.lasting records).2 hroom
  have hbatched := Contents.batched_foldl headers merger
    (records.map (Record.stamped m.config.trackDates headers)) (∅, m.live now)
  rw [Contents.merge] at hmerged
  rw [← hmerged] at hbatched
  have hkeyed : Batch.Keyed (m.live now) := fun key r hfind =>
    hm.keyed.of_peek ((Lru.find?_live m.lru now key).symm.trans hfind)
  refine ⟨hbatched.told hkeyed hmerger hexact, fun hplain hdistinct path hpath => ?_⟩
  obtain ⟨r, hr, field, value, hvalue, htold, hafter, hdiffers⟩ :=
    hbatched.ne_of_call hkeyed hplain hdistinct hrecords hpath
  refine ⟨r, hr, field, SortedMap.contains_iff.2 ⟨value, hvalue⟩, htold, ?_⟩
  rw [hafter]
  exact hdiffers.symm

namespace Store

variable {s : Store} {config : StoreConfig} {dates : WriteDates} {db db' : Database}
  {told : NameSet} {incoming : List Record}

/-- Rows that were merged after they were read. -/
theorem mergeRows_told (hmerger : merger.ByFields)
    (hmerge : mergeRows config dates (records.map (Record.stamped config.trackDates headers))
      headers merger db = .ok (told, db'))
    (hrecords : ∀ r ∈ records, r.fields.All (Value.HasShape .exact))
    (hexact : ∀ r ∈ records, ∀ stored, db.readable.find? r.key = some stored →
      stored.fields.All (Value.HasShape .exact))
    (hreadable : ∀ r ∈ records, ¬db'.Unreadable r.key) :
    Contents.Told records told db.readable db'.readable ∧
      (merger = .overwrite → (records.map Record.key).Nodup →
        Contents.ToldOnly records told db.readable db'.readable) := by
  obtain ⟨-, stored, progress, hstored, hbatched, hcovers, hkeyed, hread⟩ :=
    mergeRows_committed (fun _ _ => hmerger.key_merge) hmerge
  rw [Record.keys_stamped] at hstored hkeyed
  have hnamed {key : Key} (hkey : key ∈ records.map Record.key) :
      stored.find? key = db.readable.find? key ∧ ¬db'.Unreadable key := by
    obtain ⟨r, hr, rfl⟩ := List.mem_map.1 hkey
    exact ⟨(hstored r.key).trans (if_pos hkey), hreadable r hr⟩
  have hstoredKeyed : Batch.Keyed stored := (Database.keyed_readable db).restrict hstored
  have hexactStored : ∀ r ∈ records, ∀ old, stored.find? r.key = some old →
      old.fields.All (Value.HasShape .exact) := by
    intro r hr old hold
    rw [(hnamed (List.mem_map_of_mem hr)).1] at hold
    exact hexact r hr old hold
  have htold := hbatched.told hstoredKeyed hmerger hexactStored
  refine ⟨⟨fun key field hne => ?_, htold.named⟩, fun hplain hdistinct path hpath => ?_⟩
  · -- a record that was not written shows what its row showed before; one that was, what was
    -- merged, read back, and exact values come back unchanged
    cases hdirty : progress.dirty.find? key with
    | none => exact absurd (valueAt_kept hcovers hread hdirty field).1 hne
    | some r =>
      have hkey := hkeyed.named key r hdirty
      refine htold.changed key field fun hsame => hne ?_
      rw [Contents.valueAt_congr (hnamed hkey).1] at hsame
      rw [valueAt_written hcovers hread hdirty (hnamed hkey).2, hsame]
      refine Value.HasShape.map_reread fun value hvalue => ?_
      obtain ⟨old, hold, hfield⟩ := Option.bind_eq_some_iff.1 hvalue
      obtain ⟨r, hr, rfl⟩ := List.mem_map.1 hkey
      exact hexact r hr old hold field value hfield
  · obtain ⟨r, hr, field, value, hvalue, htold, hafter, hdiffers⟩ :=
      hbatched.ne_of_call hstoredKeyed hplain hdistinct hrecords hpath
    obtain ⟨hsame, hgood⟩ := hnamed (List.mem_map_of_mem hr)
    refine ⟨r, hr, field, SortedMap.contains_iff.2 ⟨value, hvalue⟩, htold, ?_⟩
    -- a field that was told changed in the merge, so its record was written
    cases hdirty : progress.dirty.find? r.key with
    | none =>
      rw [(valueAt_kept hcovers hread hdirty field).2] at hafter
      exact absurd hafter hdiffers
    | some merged =>
      rw [valueAt_written hcovers hread hdirty hgood, hafter, Option.map_some,
        (hrecords r hr field value hvalue).reread_eq]
      rw [Contents.valueAt_congr hsame] at hdiffers
      exact hdiffers.symm

/-- Rows that were laid over those stored. -/
theorem mergeFast_told
    (hmerge : mergeFast config dates (records.map (Record.stamped config.trackDates headers)) db =
      .ok (told, db'))
    (hexact : ∀ r ∈ records, ∀ stored, db.readable.find? r.key = some stored →
      stored.fields.All (Value.HasShape .exact)) :
    Contents.Told records told db.readable db'.readable := by
  obtain ⟨htold, hchanged⟩ := mergeFast_committed hmerge
  have hnamed (path : String) : told.contains path = true ↔
      ∃ r ∈ records, ∃ field, r.fields.contains field = true ∧ path = r.key.fieldPath field := by
    rw [htold]
    constructor
    · rintro ⟨stamped, hstamped, hpath⟩
      obtain ⟨r, hr, rfl⟩ := List.mem_map.1 hstamped
      rw [Record.contains_fieldPaths, Record.fields_stamped, Record.key_stamped] at hpath
      exact ⟨r, hr, hpath⟩
    · rintro ⟨r, hr, hpath⟩
      refine ⟨_, List.mem_map_of_mem hr, ?_⟩
      rwa [Record.contains_fieldPaths, Record.fields_stamped, Record.key_stamped]
  refine ⟨fun key field hne => (hnamed _).2 ?_, fun path => (hnamed path).1⟩
  obtain ⟨stamped, hstamped, rfl, hfield⟩ := hchanged key field
    (List.forall_mem_map.2 fun r hr hkey old hold => by
      obtain ⟨stored, hstored, hvalue⟩ := Option.bind_eq_some_iff.1 hold
      rw [← hkey, Record.key_stamped] at hstored
      exact hexact r hr stored hstored field old hvalue) hne
  obtain ⟨r, hr, rfl⟩ := List.mem_map.1 hstamped
  rw [Record.fields_stamped] at hfield
  rw [Record.key_stamped]
  exact ⟨r, hr, field, hfield, rfl⟩

/-- A persistent tier that reports nothing, and can read the rows of the batch afterwards. -/
theorem merge_told (hmerger : merger.ByFields)
    (hrecords : ∀ r ∈ records, r.fields.All (Value.HasShape .exact))
    (hexact : ∀ r ∈ records, ∀ stored, s.database.readable.find? r.key = some stored →
      stored.fields.All (Value.HasShape .exact))
    (hreports : (s.merge now records headers merger).reports = [])
    (hreadable : ∀ r ∈ records,
      ¬(s.merge now records headers merger).state.database.Unreadable r.key) :
    let outcome := s.merge now records headers merger
    Contents.Told records outcome.value s.database.readable outcome.state.database.readable ∧
      (merger = .overwrite → (records.map Record.key).Nodup →
        headers.has Headers.errorsReplaceCachedValues = false →
        Contents.ToldOnly records outcome.value s.database.readable
          outcome.state.database.readable) := by
  rw [merge] at hreports hreadable ⊢
  split at hreports
  · rw [if_pos ‹_›]
    exact ⟨Contents.told_unchanged _ _, fun _ _ _ => Contents.toldOnly_nothing _ _ _⟩
  · rw [if_neg ‹_›] at hreadable ⊢
    obtain ⟨told, db, hmerge, hrun⟩ := run_committed hreports
    rw [hrun] at hreadable ⊢
    rw [mergeIn] at hmerge
    split at hmerge
    · rename_i hfast
      rw [Bool.and_eq_true] at hfast
      refine ⟨mergeFast_told hmerge hexact, fun _ _ hslow => ?_⟩
      rw [hslow] at hfast
      cases hfast.2
    · obtain ⟨htold, honly⟩ := mergeRows_told hmerger hmerge hrecords hexact hreadable
      exact ⟨htold, fun hplain hdistinct _ => honly hplain hdistinct⟩

end Store

namespace Chain

/-- **No silent change.** A memory tier that evicts nothing, and a persistent tier that reports
nothing and can read the rows of the batch afterwards, tell every field that holds another value
after a merge than before, and nothing but fields of the batch. For distinct keys the plain merger
tells only fields that changed, unless the batch was laid over the rows. -/
theorem merge_tells_every_change (hmerger : merger.ByFields)
    (hrecords : ∀ r ∈ records, r.fields.All (Value.HasShape .exact))
    {m : Memory} (hm : m.Sound)
    (hremembered : ∀ r ∈ records, ∀ old, (m.live now).find? r.key = some old →
      old.fields.All (Value.HasShape .exact))
    (hroom : ((memory m empty).merge now records headers merger).state.evictions =
      (memory m empty).evictions)
    {s : Store}
    (hstored : ∀ r ∈ records, ∀ old, s.database.readable.find? r.key = some old →
      old.fields.All (Value.HasShape .exact))
    (hreports : ((store s).merge now records headers merger).reports = [])
    (hreadable : ∀ r ∈ records,
      ¬(s.merge now records headers merger).state.database.Unreadable r.key) :
    (∃ told m', (memory m empty).merge now records headers merger = ⟨told, memory m' empty, []⟩ ∧
      Contents.Told records told (m.live now) (m'.live now) ∧
      (merger = .overwrite → (records.map Record.key).Nodup →
        Contents.ToldOnly records told (m.live now) (m'.live now))) ∧
    ∃ told s', (store s).merge now records headers merger = ⟨told, store s', []⟩ ∧
      Contents.Told records told s.database.readable s'.database.readable ∧
      (merger = .overwrite → (records.map Record.key).Nodup →
        headers.has Headers.errorsReplaceCachedValues = false →
        Contents.ToldOnly records told s.database.readable s'.database.readable) := by
  constructor
  · cases hskip : headers.has Headers.doNotStore with
    | true =>
      refine ⟨∅, m, ?_, Contents.told_unchanged _ _, fun _ _ => Contents.toldOnly_nothing _ _ _⟩
      rw [merge, if_pos hskip]
    | false =>
      rw [merge_alone m now records hskip] at hroom ⊢
      exact ⟨_, _, rfl, Memory.merge_told hm hmerger hrecords hremembered hroom⟩
  · refine ⟨_, (s.merge now records headers merger).state, ?_,
      Store.merge_told hmerger hrecords hstored hreports hreadable⟩
    show Outcome.mk _ _ (s.merge now records headers merger).reports = _
    rw [show (s.merge now records headers merger).reports = [] from hreports]

/-- A record that both tiers have, of which one field comes again as it was, one as an error and one
as a new value, and another record that neither has. -/
theorem merge_tells_every_change_error_kept :
    let record (name : String) (fields : List (String × Value)) : Record :=
      ⟨⟨name⟩, "T", .ofList fields, ∅, none⟩
    let stored := record "a" [("x", .int 1), ("y", .int 1), ("z", .int 1)]
    let records := [record "a" [("x", .int 1), ("y", .error ⟨"boom", []⟩), ("z", .list [.null])],
      record "b" [("x", .null)]]
    let m := (Memory.new ⟨2, some ⟨Duration.second⟩, true⟩ Weigher.one).put ⟨0⟩ stored.key stored
    let s : Store := ⟨{}, ⟨some ⟨[(WriteDates.ofHeaders ⟨0⟩ Headers.none).row false stored],
      false⟩⟩⟩
    let headers := Headers.none.addInt64 Headers.receivedDate 5
    let outcome := s.merge ⟨7⟩ records headers .overwrite
    (Merger.overwrite.ByFields ∧
      (∀ r ∈ records, r.fields.All (Value.HasShape .exact)) ∧ m.Sound ∧
      (∀ r ∈ records, ∀ old, (m.live ⟨7⟩).find? r.key = some old →
        old.fields.All (Value.HasShape .exact)) ∧
      ((memory m empty).merge ⟨7⟩ records headers .overwrite).state.evictions =
        (memory m empty).evictions ∧
      (∀ r ∈ records, ∀ old, s.database.readable.find? r.key = some old →
        old.fields.All (Value.HasShape .exact)) ∧
      ((store s).merge ⟨7⟩ records headers .overwrite).reports = [] ∧
      ∀ r ∈ records, ¬outcome.state.database.Unreadable r.key) ∧
    (∃ told m', (memory m empty).merge ⟨7⟩ records headers .overwrite =
        ⟨told, memory m' empty, []⟩ ∧
      Contents.ToldOnly records told (m.live ⟨7⟩) (m'.live ⟨7⟩)) ∧
    ∃ told s', (store s).merge ⟨7⟩ records headers .overwrite = ⟨told, store s', []⟩ ∧
      Contents.ToldOnly records told s.database.readable s'.database.readable := by
  intro record stored records m s headers outcome
  have hfields {entries : List (String × Value)}
      (hentries : ∀ entry ∈ entries, entry.2.HasShape .exact) :
      (SortedMap.ofList entries).All (Value.HasShape .exact) := fun _ _ hfind =>
    Entries.forall_mem_ofList hentries _ (Entries.mem_of_find? hfind)
  have hstoredFields : stored.fields.All (Value.HasShape .exact) := by
    refine hfields ?_
    simp only [List.forall_mem_cons, List.not_mem_nil, false_implies, implies_true, and_true]
    exact ⟨⟨1, .int 1⟩, ⟨1, .int 1⟩, ⟨1, .int 1⟩⟩
  have hrecords : ∀ r ∈ records, r.fields.All (Value.HasShape .exact) := by
    refine List.forall_mem_cons.2 ⟨hfields ?_, List.forall_mem_singleton.2 (hfields ?_)⟩
    · simp only [List.forall_mem_cons, List.not_mem_nil, false_implies, implies_true, and_true]
      exact ⟨⟨1, .int 1⟩, ⟨2, .error (by decide)⟩,
        ⟨2, .list (List.forall_mem_singleton.2 .null)⟩⟩
    · exact List.forall_mem_singleton.2 ⟨0, .null⟩
  have hsound : m.Sound := (Memory.sound_new rfl _).keeps (Memory.keeps_put _ _ rfl)
  have hremembered : ∀ r ∈ records, ∀ old, (m.live ⟨7⟩).find? r.key = some old →
      old.fields.All (Value.HasShape .exact) := by
    intro r _ old hold
    let exact (_ : Key) (r : Record) : Prop := r.fields.All (Value.HasShape .exact)
    let fresh : Lru Key Record := Lru.new 2 Weigher.one (some ⟨Duration.second⟩)
    have hput : Lru.Keeps exact fresh (fresh.insert ⟨0⟩ stored.key stored).2 :=
      Lru.keeps_insert _ ⟨0⟩ hstoredFields
    obtain ⟨-, -, hall⟩ := hput (Lru.valid_new _ _ _)
    exact (hall (Lru.all_of_empty rfl)).of_peek ((Lru.find?_live m.lru _ _).symm.trans hold)
  have hroom : ((memory m empty).merge ⟨7⟩ records headers .overwrite).state.evictions =
      (memory m empty).evictions := by decide +kernel
  have hread : ∀ r ∈ records, ∀ old, s.database.readable.find? r.key = some old →
      old.fields.All (Value.HasShape .exact) := by
    intro r _ old hold
    have hexact : stored.IsExact := ⟨hstoredFields, SortedMap.all_empty⟩
    obtain ⟨row, hrow, hdecode⟩ := Option.map_eq_some_iff.1 (Database.find?_readable.1 hold)
    rw [List.mem_singleton.1 (List.mem_of_find?_eq_some hrow),
      (hexact.exact (by decide +kernel)).decode_row] at hdecode
    cases hdecode
    exact hstoredFields
  have hreports : ((store s).merge ⟨7⟩ records headers .overwrite).reports = [] := by
    decide +kernel
  have hreadable : ∀ r ∈ records, ¬outcome.state.database.Unreadable r.key := by
    have hok : ∀ r ∈ records,
        (outcome.state.database.read? r.key).all Except.isOk = true := by decide +kernel
    rintro r hr ⟨error, herror⟩
    have hrow := hok r hr
    rw [herror] at hrow
    cases hrow
  have hdistinct : (records.map Record.key).Nodup := by decide
  refine ⟨⟨.overwrite, hrecords, hsound, hremembered, hroom, hread, hreports, hreadable⟩, ?_⟩
  obtain ⟨⟨told, m', hmemory, -, honly⟩, told', s', hstore, -, honly'⟩ :=
    merge_tells_every_change .overwrite hrecords hsound hremembered hroom hread hreports hreadable
  exact ⟨⟨told, m', hmemory, honly rfl hdistinct⟩, told', s', hstore, honly' rfl hdistinct rfl⟩

end Chain
end RecordCache
