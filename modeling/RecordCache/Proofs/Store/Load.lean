import RecordCache.Chain.Build
import RecordCache.Proofs.Database.Lookup

/-!
# Reading records from their rows

A load gives the records found under some keys, in the order of the keys, and removes them from the
table if the headers say so.

* `Store.new` is a tier to begin with;
* `Store.mapM_decode_eq`: rows read for a list of keys;
* `Store.read?_delete_found`: what an evicting load takes out;
* `Store.loadIn_eq`, `load_eq`: what a load gives and what it leaves.
-/

namespace RecordCache

namespace Store

/-- A persistent tier with an empty table of its own. -/
def new (config : StoreConfig) : Store := ⟨config, Database.prepare config.trackDates ⟨none⟩⟩

/-- This is what opening a tier without a path gives. -/
theorem open_eq_new (disk : Disk) {config : StoreConfig} (hpath : config.path = none)
    (hvalid : config.validate = .ok ()) : Store.open disk config = .ok (new config, disk) := by
  rw [Store.open, hvalid, hpath]
  rfl

/-- A list of keys whose rows can be read. -/
theorem mapM_decode_eq {table : Table} {c : SortedMap Key Record} {keys : List Key}
    (hread : ∀ key ∈ keys, table.read? key = (c.find? key).map .ok) :
    (keys.filterMap table.find?).mapM Row.decode = .ok (keys.filterMap c.find?) := by
  induction keys with
  | nil => rfl
  | cons key keys ih =>
    obtain ⟨hkey, hkeys⟩ := List.forall_mem_cons.1 hread
    rw [Table.read?] at hkey
    cases hrow : table.find? key with
    | none =>
      cases hc : c.find? key with
      | none => rw [List.filterMap_cons_none hrow, List.filterMap_cons_none hc, ih hkeys]
      | some r => simp [hrow, hc] at hkey
    | some row =>
      cases hc : c.find? key with
      | none => simp [hrow, hc] at hkey
      | some r =>
        have hdecode : row.decode = .ok r := by simpa [hrow, hc] using hkey
        rw [List.filterMap_cons_some hrow, List.filterMap_cons_some hc, List.mapM_cons, hdecode,
          ih hkeys]
        rfl

theorem key_of_read? {table : Table} {key : Key} {r : Record}
    (h : table.read? key = (some r).map .ok) : r.key = key := by
  obtain ⟨row, hrow, hdecode⟩ := Option.map_eq_some_iff.1 h
  exact (Table.decode_key hdecode).1.trans (Table.key_of_find? hrow)

/-- What is read under one key, as a map. -/
theorem exists_keyed {table : Table} {key : Key} {current : Option Record}
    (h : table.read? key = current.map .ok) :
    ∃ c : SortedMap Key Record, Batch.Keyed c ∧ c.find? key = current := by
  cases current with
  | none => exact ⟨∅, Batch.keyed_empty, rfl⟩
  | some r =>
    refine ⟨SortedMap.insert ∅ r.key r, Batch.keyed_empty.insert r, ?_⟩
    rw [key_of_read? h]
    exact SortedMap.find?_insert_self _ _ _

/-- Taking out the records that were found takes out all that were asked for, since there is no row
for the others. -/
theorem read?_delete_found {table : Table} {found : SortedMap Key Record} {keys : List Key}
    (hasked : ∀ key r, found.find? key = some r → key ∈ keys)
    (hmissing : ∀ key ∈ keys, found.find? key = none → table.read? key = none) (key : Key) :
    (table.deleteKeys found.keys).2.read? key =
      if key ∈ keys then none else table.read? key := by
  rw [Table.deleteKeys, Table.read?_deleteWhere fun key => found.keys.contains key]
  cases hfind : found.find? key with
  | none =>
    have hnot : ¬found.keys.contains key = true := by
      rw [List.contains_iff_mem, SortedMap.mem_keys, hfind]
      rintro ⟨r, ⟨⟩⟩
    rw [if_neg hnot]
    split
    · rename_i hkey
      exact hmissing key hkey hfind
    · rfl
  | some r =>
    rw [if_pos (hasked key r hfind),
      if_pos (List.contains_iff_mem.2 (SortedMap.mem_keys.2 ⟨r, hfind⟩))]

/-- What the statements of a load give and what they leave. -/
theorem loadIn_eq {config : StoreConfig} {table : Table} {c : SortedMap Key Record}
    {keys : List Key} (headers : Headers) (hkeyed : Batch.Keyed c)
    (hread : ∀ key ∈ keys, table.read? key = (c.find? key).map .ok)
    (hbinds : Database.Binds config.maxParameters keys.length) :
    ∃ table' : Table,
      loadIn config keys headers ⟨some table⟩ = .ok (Batch.inOrder c keys, ⟨some table'⟩) ∧
      (table.keys.Nodup → table'.keys.Nodup) ∧
      ∀ key, table'.read? key =
        if headers.has Headers.evictAfterRead ∧ key ∈ keys then none else table.read? key := by
  have hselect := Database.select_eq table (hbinds.mono (Batch.length_distinct_le keys))
  rw [mapM_decode_eq fun key hkey => hread key (Batch.mem_distinct.1 hkey)] at hselect
  generalize hfoundEq : Batch.byKey ((Batch.distinct keys).filterMap c.find?) = found
  have hfound (key : Key) : found.find? key = if key ∈ keys then c.find? key else none :=
    hfoundEq ▸ hkeyed.find?_byKey_distinct keys key
  have hinOrder : Batch.inOrder found keys = Batch.inOrder c keys :=
    Batch.inOrder_congr fun key hkey => by rw [hfound, if_pos hkey]
  have hmissing : ∀ key ∈ keys, found.find? key = none → table.read? key = none := by
    intro key hkey hnone
    rw [hfound, if_pos hkey] at hnone
    rw [hread key hkey, hnone]
    rfl
  rw [loadIn, hselect]
  by_cases hevict : (headers.has Headers.evictAfterRead && !found.isEmpty) = true
  · -- only what was found is deleted, and that is no more than was asked for
    have hasked (key : Key) (r : Record) (hr : found.find? key = some r) : key ∈ keys := by
      rw [hfound] at hr
      exact (Option.ite_none_right_eq_some.1 hr).1
    have hfew : found.keys.length ≤ keys.length := by
      rw [SortedMap.keys, List.length_map]
      exact SortedMap.size_le hasked
    have hdelete : Database.deleteKeys config.maxParameters found.keys ⟨some table⟩ = _ :=
      Database.deleteKeys_eq table (hbinds.mono hfew)
    have hflag : headers.has Headers.evictAfterRead = true := (Bool.and_eq_true_iff.1 hevict).1
    simp only [bind, Except.bind, hfoundEq, hevict, hdelete, hinOrder]
    refine ⟨_, rfl, Table.nodup_keys_deleteWhere, fun key => ?_⟩
    refine (read?_delete_found hasked hmissing key).trans ?_
    exact if_congr (and_iff_right hflag).symm rfl rfl
  · -- nothing is deleted: the read does not evict, or it found nothing
    simp only [bind, Except.bind, hfoundEq, hevict, hinOrder]
    refine ⟨table, rfl, id, fun key => ?_⟩
    split
    · rename_i hboth
      have hempty : found.isEmpty = true := by simpa [hboth.1] using hevict
      exact hmissing key hboth.2 (SortedMap.isEmpty_iff.1 hempty key)
    · rfl

/-- **Loading.** A load gives the records under the keys, in order, and an evicting one takes them
out of the table. -/
theorem load_eq {s : Store} {table : Table} {c : SortedMap Key Record} {keys : List Key}
    (headers : Headers) (hdatabase : s.database = ⟨some table⟩)
    (hmemory : headers.has Headers.memoryCacheOnly = false) (hkeyed : Batch.Keyed c)
    (hread : ∀ key ∈ keys, table.read? key = (c.find? key).map .ok)
    (hbinds : Database.Binds s.config.maxParameters keys.length) :
    ∃ table' : Table,
      s.load keys headers =
        ⟨Batch.inOrder c keys, { s with database := ⟨some table'⟩ }, []⟩ ∧
      (table.keys.Nodup → table'.keys.Nodup) ∧
      ∀ key, table'.read? key =
        if headers.has Headers.evictAfterRead ∧ key ∈ keys then none else table.read? key := by
  rw [load, hmemory, Bool.false_or]
  split
  · rename_i hempty
    obtain rfl := List.isEmpty_iff.1 hempty
    refine ⟨table, ?_, id, fun key => ?_⟩
    · rw [← hdatabase]
      rfl
    · rw [if_neg fun h => List.not_mem_nil h.2]
  · obtain ⟨table', hload, hleft⟩ := loadIn_eq headers hkeyed hread hbinds
    refine ⟨table', ?_, hleft⟩
    rw [run, hdatabase, hload]

theorem head?_inOrder (c : SortedMap Key Record) (key : Key) :
    (Batch.inOrder c [key]).head? = c.find? key := by
  rw [Batch.inOrder]
  cases c.find? key <;> rfl

/-- The load of one key without headers gives the record of its row. -/
theorem head?_load {s : Store} {table : Table} {key : Key} {current : Option Record}
    (hdatabase : s.database = ⟨some table⟩) (hcurrent : table.read? key = current.map .ok) :
    (s.load [key] Headers.none).value.head? = current := by
  obtain ⟨c, hkeyed, hc⟩ := exists_keyed hcurrent
  have hread : ∀ k ∈ [key], table.read? k = (c.find? k).map .ok := by
    intro k hk
    rw [List.mem_singleton.1 hk, hc]
    exact hcurrent
  obtain ⟨_, hload, -⟩ := load_eq Headers.none hdatabase rfl hkeyed hread (.one _)
  rw [hload, head?_inOrder, hc]

theorem loadIn_value {config : StoreConfig} {keys : List Key} {headers : Headers} {db : Database}
    {result : List Record × Database} (h : loadIn config keys headers db = .ok result) :
    ∃ records, db.select config.maxParameters keys = .ok records ∧
      result.1 = Batch.inOrder (Batch.byKey records) keys := by
  rw [loadIn] at h
  obtain ⟨records, hselect, h⟩ := ok_of_bind h
  dsimp only at h
  split at h
  · obtain ⟨left, -, h⟩ := ok_of_bind h
    cases h
    exact ⟨records, hselect, rfl⟩
  · cases h
    exact ⟨records, hselect, rfl⟩

/-- Whatever happens, a load gives records found under the keys, or nothing. -/
theorem load_value (s : Store) (keys : List Key) (headers : Headers) :
    (s.load keys headers).value = [] ∨
      ∃ records, s.database.select s.config.maxParameters keys = .ok records ∧
        (s.load keys headers).value = Batch.inOrder (Batch.byKey records) keys := by
  rw [load]
  split
  · exact .inl rfl
  · rw [run]
    cases hresult : loadIn s.config keys headers s.database with
    | error error => exact .inl rfl
    | ok result => exact .inr (loadIn_value hresult)

/-- A record that is given for a key is one of this key. -/
theorem key_of_load {s : Store} {key : Key} {headers : Headers} {r : Record}
    (h : (s.load [key] headers).value.head? = some r) : r.key = key := by
  rcases s.load_value [key] headers with hnone | ⟨records, -, hfound⟩
  · rw [hnone] at h
    cases h
  · rw [hfound, head?_inOrder] at h
    exact Batch.keyed_byKey records key r h

end Store
end RecordCache
