import RecordCache.Proofs.Database.Lookup
import RecordCache.Proofs.Record.Overlay

/-!
# Rows written one after the other

A batch of rows changes what is found under their keys, and nothing else.

* `Table.Wrote` says which rows a batch leaves as they are, and of what date those are that it
  writes (`Table.wrote_of_foldlM`);
* `Table.updateRow_overlay`: a row that can be read, with that of an exact record laid over it.
-/

namespace RecordCache

namespace Table

variable {mode : WriteMode} {table written : Table}

/-- The rows under some keys were written at a date, and the others are as they were. -/
structure Wrote (keys : List Key) (date : Int64) (table written : Table) : Prop where
  others : ∀ keep : Key → Bool, (∀ key ∈ keys, keep key = false) →
    (written.rows.filter fun row => keep row.key) = table.rows.filter fun row => keep row.key
  dates : ∀ key ∈ keys, ∃ row, written.find? key = some row ∧ row.updatedDate = date

theorem wrote_nil (date : Int64) (table : Table) : Wrote [] date table table :=
  ⟨fun _ _ => rfl, fun _ hkey => absurd hkey List.not_mem_nil⟩

/-- A row, and then others. -/
theorem Wrote.cons {date : Int64} {row : Row} {keys : List Key} {first : Table}
    (hfirst : upsert mode table row = .ok first) (hdate : row.updatedDate = date)
    (h : Wrote keys date first written) : Wrote (row.key :: keys) date table written := by
  obtain ⟨updated, hupdated, hupdatedDate, hreplaces⟩ := replaces_of_upsert hfirst
  constructor
  · intro keep hkeep
    obtain ⟨hrow, hrest⟩ := List.forall_mem_cons.1 hkeep
    rw [h.others keep hrest, hreplaces.others keep (by rw [hupdated, hrow])]
  · intro key hkey
    by_cases hin : key ∈ keys
    · exact h.dates key hin
    have hsame : key = updated.key := by
      rw [hupdated]
      exact (List.mem_cons.1 hkey).resolve_right hin
    have hlater : written.find? key = first.find? key := by
      have hothers := h.others (fun k => k = key)
        fun k hk => decide_eq_false fun heq => hin (heq ▸ hk)
      rw [find?, find?, ← List.head?_filter, ← List.head?_filter, hothers]
    refine ⟨updated, ?_, hupdatedDate.trans hdate⟩
    exact hlater.trans ((hreplaces.find key).trans (if_pos hsame))

/-- **Writing a batch** of one date. -/
theorem wrote_of_foldlM {date : Int64} {rows : List Row}
    (hrows : ∀ row ∈ rows, row.updatedDate = date)
    (h : rows.foldlM (upsert mode) table = .ok written) :
    Wrote (rows.map Row.key) date table written := by
  induction rows generalizing table with
  | nil =>
    cases h
    exact wrote_nil date _
  | cons row rows ih =>
    obtain ⟨hrow, hrest⟩ := List.forall_mem_cons.1 hrows
    rw [List.foldlM_cons] at h
    obtain ⟨first, hfirst, h⟩ := ok_of_bind h
    exact .cons hfirst hrow (ih hrest h)

theorem Wrote.congr {date : Int64} {keys keys' : List Key} (h : Wrote keys date table written)
    (hkeys : ∀ key, key ∈ keys ↔ key ∈ keys') : Wrote keys' date table written :=
  ⟨fun keep hkeep => h.others keep fun key hkey => hkeep key ((hkeys key).1 hkey),
    fun key hkey => h.dates key ((hkeys key).2 hkey)⟩

/-- A row over which another was laid could be read, and so could that one: it is read as the one
record laid over the other. -/
theorem decode_of_updateRow {trackDates : Bool} {stored row updated : Row}
    (h : updateRow ⟨true, trackDates⟩ stored row = .ok updated) :
    ∃ old top, stored.decode = .ok old ∧ row.decode = .ok top ∧
      updated.decode = .ok (old.overlay top).reread := by
  rw [updateRow_eq, if_pos rfl] at h
  obtain ⟨text, htext, rfl⟩ := ok_of_map h
  obtain ⟨old, top, hparse, hparseTop, rfl⟩ := Row.overlayBlob_eq_ok.1 htext
  have hold : stored.decode = .ok (old.toRecord stored.key stored.typeName) :=
    Row.decode_eq_ok.2 ⟨old, hparse, rfl⟩
  have htop : row.decode = .ok (top.toRecord row.key row.typeName) :=
    Row.decode_eq_ok.2 ⟨top, hparseTop, rfl⟩
  have hreadable := Record.storable_finite_iff.1 <|
    (Row.storable_of_decode hold).finite.overlay (Row.storable_of_decode htop).finite
  have hreread : Blob.parse? (old.overlay top).print = some (old.overlay top).reread :=
    (Blob.parse?_print _).trans (if_pos hreadable)
  exact ⟨_, _, hold, htop, Row.decode_eq_ok.2 ⟨_, hreread, rfl⟩⟩

/-- A row that can be read stays readable when the row of an exact record is laid over it: it is
read as the one record laid over the other. -/
theorem updateRow_overlay {stored : Row} {old top : Record} (hstored : stored.decode = .ok old)
    (htop : top.Exact) (dates : WriteDates) (trackDates : Bool) :
    ∃ updated, updateRow ⟨true, trackDates⟩ stored (dates.row trackDates top) = .ok updated ∧
      updated.decode = .ok (old.overlay top).reread := by
  have hrow := htop.decode_row dates trackDates
  obtain ⟨blob, hparse, -⟩ := Row.decode_eq_ok.1 hstored
  obtain ⟨new, hnew, -⟩ := Row.decode_eq_ok.1 hrow
  have hupdated : updateRow ⟨true, trackDates⟩ stored (dates.row trackDates top) =
      .ok (replacement ⟨true, trackDates⟩ stored (dates.row trackDates top)
        (Blob.overlay blob new).print) := by
    rw [updateRow_eq, if_pos rfl, Row.overlayBlob_eq_ok.2 ⟨blob, new, hparse, hnew, rfl⟩]
    rfl
  obtain ⟨old', top', hold', htop', hdecode⟩ := decode_of_updateRow hupdated
  rw [hstored] at hold'
  rw [hrow] at htop'
  cases hold'
  cases htop'
  exact ⟨_, hupdated, hdecode⟩

end Table
end RecordCache
