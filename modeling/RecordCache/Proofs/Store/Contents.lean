import RecordCache.Proofs.Database.Reach
import RecordCache.Proofs.Pattern.Glob
import RecordCache.Proofs.Store.Merge

/-!
# The contents of a persistent tier

A persistent tier whose records can be read back as they were written does to its contents what each
operation says, as long as its statements bind few enough parameters.

* `Store.Holds` says what the contents of a tier are;
* `Store.Answers`: a call gives a value, reports nothing and leaves such contents;
* `Store.load_answers`, `dump_answers`: reading;
* `Store.merge_answers`: merging, by the invariant `Progress.Follows` of a batch;
* `Store.removeKeys_answers`, `removeTypes_answers`, `removeMatching_answers`: removals.
-/

namespace RecordCache

namespace Table

variable {table : Table} {c c' : Contents}

theorem find?_of_mem (h : table.keys.Nodup) {row : Row} (hrow : row ∈ table.rows) :
    table.find? row.key = some row := by
  cases hfind : table.find? row.key with
  | none => exact absurd (List.mem_map_of_mem hrow) (find?_eq_none.1 hfind)
  | some found =>
    have hfound := List.mem_of_find?_eq_some hfind
    exact congrArg some (List.inj_on_of_nodup_map h hfound hrow (key_of_find? hfind))

/-- A row is read as the record under its key. -/
theorem Holds.decode (h : table.Holds c) {row : Row} (hrow : row ∈ table.rows) :
    ∃ r, c.find? row.key = some r ∧ row.decode = .ok r := by
  have hread := h.read row.key
  rw [read?, find?_of_mem h.nodup hrow, Option.map_some] at hread
  obtain ⟨r, hfind, hdecode⟩ := Option.map_eq_some_iff.1 hread.symm
  exact ⟨r, hfind, hdecode.symm⟩

/-- Removing rows removes the records of their keys. -/
theorem Holds.deleteWhere (h : table.Holds c) {doomed : Row → Bool} {gone : Key → Prop} {n : Nat}
    (hdoomed : ∀ row ∈ table.rows, (doomed row = true ↔ gone row.key))
    (hremoval : c.Removal gone n c') :
    (table.deleteWhere doomed).1 = n ∧ (table.deleteWhere doomed).2.Holds c' := by
  classical
  have hrows : table.deleteWhere doomed = table.deleteWhere fun row => decide (gone row.key) :=
    Table.deleteWhere_congr fun row hrow => by
      rw [Bool.eq_iff_iff, decide_eq_true_iff]
      exact hdoomed row hrow
  have hleft : (table.deleteWhere doomed).2.Holds c' := by
    refine ⟨nodup_keys_deleteWhere h.nodup, fun key => ?_⟩
    rw [hrows, read?_deleteWhere (fun key => decide (gone key)), h.read]
    by_cases hkey : gone key
    · rw [if_pos (decide_eq_true hkey), hremoval.removed key hkey]
      rfl
    · rw [if_neg (by simpa using hkey), hremoval.kept key hkey]
  refine ⟨?_, hleft⟩
  have hbefore := h.count_eq
  have hafter := hleft.count_eq
  have hcounted := hremoval.counted
  have htotal :
      (table.deleteWhere doomed).1 + (table.deleteWhere doomed).2.count = table.count := by
    show table.rows.countP doomed + (table.rows.filter fun row => !doomed row).length = _
    rw [List.countP_eq_length_filter]
    have hsplit := List.length_eq_length_filter_add (l := table.rows) doomed
    exact hsplit.symm
  omega

end Table

namespace Store

/-- The tier has these settings and a table with these contents. -/
def Holds (config : StoreConfig) (s : Store) (c : Contents) : Prop :=
  ∃ table, s = ⟨config, ⟨some table⟩⟩ ∧ table.Holds c

/-- The call gives the value, reports nothing, and leaves the contents. -/
def Answers {α : Type} (config : StoreConfig) (outcome : Outcome Store α) (value : α)
    (c : Contents) : Prop :=
  ∃ s, outcome = ⟨value, s, []⟩ ∧ s.Holds config c

variable {config : StoreConfig} {s : Store} {c c' : Contents} {K : Key → Prop}

theorem holds_new (config : StoreConfig) : (new config).Holds config ∅ :=
  ⟨⟨[], config.trackDates⟩, rfl, List.nodup_nil, fun _ => rfl⟩

theorem load_answers (h : s.Holds config c) (hkeyed : Batch.Keyed c)
    (hlimit : config.maxParameters ≤ Database.maxParameters) (keys : List Key) {headers : Headers}
    (hmemory : headers.has Headers.memoryCacheOnly = false) :
    Answers config (s.load keys headers) (Batch.inOrder c keys)
      (c.afterReading (headers.has Headers.evictAfterRead) keys) := by
  obtain ⟨table, rfl, htable⟩ := h
  obtain ⟨table', hload, hnodup, hread⟩ := load_eq (s := ⟨config, ⟨some table⟩⟩) headers rfl
    hmemory hkeyed (fun key (_ : key ∈ keys) => htable.read key) (.inl hlimit)
  refine ⟨_, hload, table', rfl, hnodup htable.nodup, fun key => ?_⟩
  rw [hread, Contents.find?_afterReading, htable.read]
  split <;> rfl

theorem dump_answers (h : s.Holds config c) (hkeyed : Batch.Keyed c) :
    Answers config s.dump c c := by
  obtain ⟨table, rfl, htable⟩ := h
  have hrows : table.rows = table.keys.filterMap table.find? := by
    rw [Table.keys, List.filterMap_map]
    refine (List.filterMap_some.symm.trans ?_)
    exact List.filterMap_congr fun row hrow => (Table.find?_of_mem htable.nodup hrow).symm
  have hall : Database.selectAll ⟨some table⟩ = .ok (table.keys.filterMap c.find?) := by
    show table.rows.mapM Row.decode = _
    rw [hrows]
    exact mapM_decode_eq fun key _ => htable.read key
  have hdump : Batch.byKey (table.keys.filterMap c.find?) = c := by
    refine SortedMap.ext fun key => ?_
    rw [Batch.find?_byKey_filterMap hkeyed]
    split
    · rfl
    · rename_i hkey
      rw [htable.mem_keys_iff, SortedMap.mem_keys] at hkey
      exact (Option.eq_none_iff_forall_ne_some.2 fun r hfind => hkey ⟨r, hfind⟩).symm
  refine ⟨_, ?_, table, rfl, htable⟩
  rw [dump, run, hall]
  simp only [bind, Except.bind, hdump]
  rfl

/-- A batch merged with its rows beside the same batch merged with the contents: the same fields
have changed, and what is current, or written over what was there, are the contents so far. -/
structure Progress.Follows (progress : Progress) (c : Contents) (keys : List Key)
    (result : NameSet × Contents) : Prop where
  changed : progress.changed = result.1
  current : ∀ key ∈ keys, progress.current.find? key = result.2.find? key
  dirty : ∀ key, (progress.dirty.find? key).or (c.find? key) = result.2.find? key

/-- A batch begins with the records of its keys. -/
theorem Progress.follows_start {stored : Contents} {keys : List Key}
    (hstored : ∀ key, stored.find? key = if key ∈ keys then c.find? key else none) :
    Progress.Follows ⟨stored, ∅, ∅⟩ c keys (∅, c) :=
  ⟨rfl, fun key hkey => by rw [hstored, if_pos hkey], fun _ => rfl⟩

section Merge

variable {headers : Headers} {merger : Merger} {progress : Progress} {keys : List Key}
  {result : NameSet × Contents}

theorem Progress.Follows.mergeOne (h : progress.Follows c keys result) {incoming : Record}
    (hkey : incoming.key ∈ keys)
    (hfields : ∀ existing, result.2.find? incoming.key = some existing →
      (merger.merge existing incoming headers).record.isEmpty = false) :
    (mergeOne headers merger progress incoming).Follows c keys
      (Contents.mergeOne headers merger result incoming) := by
  have hinsert (r : Record) (key : Key) :
      ((progress.dirty.insert r.key r).find? key).or (c.find? key) =
        (result.2.insert r.key r).find? key := by
    rw [SortedMap.find?_insert_eq, SortedMap.find?_insert_eq]
    split
    · rfl
    · exact h.dirty key
  have hcurrent (r : Record) : ∀ key ∈ keys,
      (progress.current.insert r.key r).find? key = (result.2.insert r.key r).find? key := by
    intro key hmem
    rw [SortedMap.find?_insert_eq, SortedMap.find?_insert_eq, h.current key hmem]
  rw [Store.mergeOne, Contents.mergeOne, h.current incoming.key hkey, h.changed]
  cases hfind : result.2.find? incoming.key with
  | none => exact ⟨rfl, hcurrent incoming, hinsert incoming⟩
  | some existing =>
    dsimp only
    rw [hfields existing hfind]
    exact ⟨rfl, hcurrent _, hinsert _⟩

theorem Progress.Follows.foldl (h : progress.Follows c keys result) (headers : Headers)
    (hmerger : merger ∈ Merger.fieldwise) (hregular : result.2.Regular K) {records : List Record}
    (hrecords : ∀ r ∈ records, r.Regular K ∧ r.key ∈ keys) :
    (records.foldl (Store.mergeOne headers merger) progress).Follows c keys
        (records.foldl (Contents.mergeOne headers merger) result) ∧
      (records.foldl (Contents.mergeOne headers merger) result).2.Regular K := by
  induction records generalizing progress result with
  | nil => exact ⟨h, hregular⟩
  | cons r records ih =>
    obtain ⟨⟨hr, hkey⟩, hrest⟩ := List.forall_mem_cons.1 hrecords
    have hfields (existing : Record) (hfind : result.2.find? r.key = some existing) :
        (merger.merge existing r headers).record.isEmpty = false :=
      (Contents.regular_merge hmerger (hregular.all _ _ hfind) hr).fields
    exact ih (h.mergeOne hkey hfields) (hregular.mergeOne hmerger result.1 hr) hrest

/-- What is read after the records were written are the contents. -/
theorem Progress.Follows.read_eq (h : progress.Follows c keys result)
    (hregular : result.2.Regular K) (dates : WriteDates) (trackDates : Bool) (key : Key) :
    ((progress.dirty.find? key).map fun r => (dates.row trackDates r).decode).or
        ((c.find? key).map .ok) = (result.2.find? key).map .ok := by
  rw [← h.dirty]
  cases hfind : progress.dirty.find? key with
  | none => rfl
  | some r =>
    have hresult : result.2.find? key = some r := by rw [← h.dirty, hfind, Option.some_or]
    exact congrArg some ((hregular.all key r hresult).exact.decode_row dates trackDates)

/-- **Merging with rows.** A batch is merged into the contents. -/
theorem merge_answers (h : s.Holds config c) (hregular : c.Regular K)
    (hlimit : config.maxParameters ≤ Database.maxParameters) (now : Instant)
    (hmerger : merger ∈ Merger.fieldwise) {records : List Record}
    (hrecords : ∀ r ∈ records, r.Regular K)
    (hstore : headers.has Headers.doNotStore = false)
    (hmemory : headers.has Headers.memoryCacheOnly = false)
    (herrors : headers.has Headers.errorsReplaceCachedValues = false) :
    let result := c.merge headers merger (records.map (Record.stamped config.trackDates headers))
    Answers config (s.merge now records headers merger) result.1 result.2 ∧
      result.2.Regular K := by
  obtain ⟨table, rfl, htable⟩ := h
  by_cases hempty : records = []
  · subst hempty
    refine ⟨⟨_, ?_, table, rfl, htable⟩, hregular⟩
    rw [merge, List.isEmpty_nil, Bool.or_true, Bool.true_or]
    rfl
  have hslow : (merger.isFieldOverwrite && headers.has Headers.errorsReplaceCachedValues) =
      false := by
    rw [herrors, Bool.and_false]
  obtain ⟨stored, written, hstored, hmerge, -, hnodup, hread⟩ :=
    merge_eq (s := ⟨config, ⟨some table⟩⟩) (fun _ _ => (Merger.byFields_of_mem hmerger).key_merge)
      now rfl hempty hstore hmemory hslow hregular.keyed (fun r _ => htable.read r.key)
      (.inl hlimit)
  have hstart := Progress.follows_start hstored
  have hincoming : ∀ r ∈ records.map (Record.stamped config.trackDates headers),
      r.Regular K ∧ r.key ∈ records.map Record.key :=
    List.forall_mem_map.2 fun r hr =>
      ⟨(hrecords r hr).stamped _ _, Record.key_stamped_mem hr _ _⟩
  obtain ⟨hfollows, hkept⟩ := hstart.foldl headers hmerger hregular hincoming
  refine ⟨⟨_, hmerge.trans (by rw [hfollows.changed]; rfl), written, rfl, hnodup htable.nodup,
    fun key => ?_⟩, hkept⟩
  refine (hread key).trans ?_
  rw [htable.read]
  exact hfollows.read_eq hkept _ _ key

end Merge

section Removals

variable {n : Nat}

theorem removeKeys_answers (h : s.Holds config c)
    (hlimit : config.maxParameters ≤ Database.maxParameters) {keys : List Key} {cascade : Bool}
    (hremoval : c.Removal (c.Reached cascade keys) n c') :
    Answers config (s.removeKeys keys cascade) n c' := by
  obtain ⟨table, rfl, htable⟩ := h
  have htargets : ∃ targets, removeKeys ⟨config, ⟨some table⟩⟩ keys cascade =
        run ⟨config, ⟨some table⟩⟩ "remove_keys" 0
          (Database.deleteKeys config.maxParameters targets) ∧
      ∀ key, key ∈ targets ↔ c.Reached cascade keys key := by
    cases cascade with
    | false =>
      refine ⟨keys, rfl, fun key => ⟨.given, fun hreached => ?_⟩⟩
      cases hreached with
      | given hkey => exact hkey
      | referred hcascade => cases hcascade
    | true =>
      obtain ⟨targets, hfound, hreached⟩ := Database.reachable_eq htable hlimit keys
      refine ⟨targets, ?_, hreached⟩
      rw [removeKeys, run, run, if_pos rfl, hfound]
      rfl
  obtain ⟨targets, hrun, hreached⟩ := htargets
  have hdoomed : ∀ row ∈ table.rows,
      (targets.contains row.key = true ↔ c.Reached cascade keys row.key) := fun row _ => by
    rw [List.contains_iff_mem, hreached]
  obtain ⟨hcount, hleft⟩ := htable.deleteWhere hdoomed hremoval
  refine ⟨_, ?_, _, rfl, hleft⟩
  rw [hrun, run, Database.deleteKeys_eq table (.inl hlimit), hcount]

theorem removeTypes_answers (h : s.Holds config c)
    (hlimit : config.maxParameters ≤ Database.maxParameters) {types : List String}
    (hremoval : c.Removal (fun key => ∃ r, c.find? key = some r ∧
      types.contains r.typeName = true) n c') :
    Answers config (s.removeTypes types) n c' := by
  obtain ⟨table, rfl, htable⟩ := h
  have hdoomed : ∀ row ∈ table.rows, (types.contains row.typeName = true ↔
      ∃ r, c.find? row.key = some r ∧ types.contains r.typeName = true) := by
    intro row hrow
    obtain ⟨r, hfind, hdecode⟩ := htable.decode hrow
    rw [hfind, ← (Table.decode_key hdecode).2]
    simp
  obtain ⟨hcount, hleft⟩ := htable.deleteWhere hdoomed hremoval
  cases types with
  | nil =>
    have hnothing : c.Removal (fun key => ∃ r, c.find? key = some r ∧
        ([] : List String).contains r.typeName = true) 0 c :=
      ⟨fun _ h => absurd h.choose_spec.2 Bool.false_ne_true, fun _ _ => rfl, Nat.zero_add _⟩
    obtain ⟨rfl, rfl⟩ := hremoval.unique hnothing
    exact ⟨_, rfl, table, rfl, htable⟩
  | cons first rest =>
    refine ⟨_, ?_, _, rfl, hleft⟩
    have hdelete : Database.deleteTypes config.maxParameters (first :: rest) ⟨some table⟩ = _ :=
      Database.deleteTypes_eq table (.inl hlimit)
    rw [removeTypes, run, hdelete, hcount]
    rfl

/-- A statement that binds too many types fails, and nothing is removed. -/
theorem removeTypes_unbound (s : Store) {types : List String}
    (hlimit : Database.maxParameters < s.config.maxParameters)
    (htypes : Database.maxParameters < types.length) : (s.removeTypes types).value = 0 := by
  cases types with
  | nil => exact absurd htypes (Nat.not_lt_zero _)
  | cons first rest =>
    have hdelete : Database.deleteTypes s.config.maxParameters (first :: rest) s.database =
        .error Database.overbound := by
      rw [Database.deleteTypes, Batch.chunks, Database.deleteChunks,
        Database.bind_first first hlimit htypes]
      rfl
    rw [removeTypes, run, hdelete]
    rfl

theorem removeMatching_answers (h : s.Holds config c) {pattern : Pattern}
    (hserves : ∀ key r, c.find? key = some r → Glob.Serves pattern.glob key)
    (hremoval : c.Removal (fun key => ∃ r, c.find? key = some r ∧
      pattern.accepts key = true) n c') :
    Answers config (s.removeMatching pattern) n c' := by
  obtain ⟨table, rfl, htable⟩ := h
  have hserved : ∀ row ∈ table.rows, Glob.Serves pattern.glob row.key := by
    intro row hrow
    obtain ⟨r, hfind, -⟩ := htable.decode hrow
    exact hserves row.key r hfind
  have hdoomed : ∀ row ∈ table.rows, (pattern.accepts row.key = true ↔
      ∃ r, c.find? row.key = some r ∧ pattern.accepts row.key = true) := by
    intro row hrow
    obtain ⟨r, hfind, -⟩ := htable.decode hrow
    rw [hfind]
    simp
  obtain ⟨hcount, hleft⟩ := htable.deleteWhere hdoomed hremoval
  refine ⟨_, ?_, _, rfl, hleft⟩
  rw [removeMatching, run, Database.deleteMatching_eq table hserved, hcount]

theorem clear_answers (h : s.Holds config c) : Answers config s.clear () ∅ := by
  obtain ⟨table, rfl, htable⟩ := h
  have hall : c.Removal (fun _ => True) c.size ∅ :=
    ⟨fun _ _ => rfl, fun _ hkept => absurd trivial hkept, rfl⟩
  exact ⟨_, rfl, _, rfl, (htable.deleteWhere (fun _ _ => iff_of_true rfl trivial) hall).2⟩

end Removals

end Store
end RecordCache
