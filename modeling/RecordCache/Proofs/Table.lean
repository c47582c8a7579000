import RecordCache.Proofs.Record.Shape
import RecordCache.Table

/-!
# Rows of a table

A row that is written takes the place of the one with its key, or the last place if there is none.
What is there was either written as it is or comes from the stored row, and nothing else changes.

* `ok_of_bind`, `ok_of_map`: the steps of a computation that has a result have results;
* `Table.read?` is the record under a key, or why it cannot be read;
* `Table.put` is where a row goes, with `find?_put`, `filter_put`, `keys_put` and
  `forall_mem_put`;
* `Table.absorb` is what becomes of the row under a key, and `Table.upsert_eq_put` puts both
  together: from it come `upsert_ok` and, of a row that was written, `absorb_of_upsert` and
  `keys_of_upsert`;
* `Table.foldlM_upsert_replace`: of several rows written, the last one of a key is found;
* `Table.read?_deleteWhere`: a removed record is not found.
-/

namespace RecordCache

universe u v

section Except

variable {ε : Type v} {α β : Type u} {x : Except ε α} {b : β}

/-- A computation with a result is made of steps with results. -/
theorem ok_of_bind {f : α → Except ε β} (h : x >>= f = .ok b) : ∃ a, x = .ok a ∧ f a = .ok b := by
  cases x with
  | ok a => exact ⟨a, rfl, h⟩
  | error error => cases h

theorem ok_of_map {f : α → β} (h : f <$> x = .ok b) : ∃ a, x = .ok a ∧ f a = b := by
  cases x with
  | ok a =>
    cases h
    exact ⟨a, rfl, rfl⟩
  | error error => cases h

end Except

namespace Table

/-- The record stored under a key, or why it cannot be read. -/
def read? (table : Table) (key : Key) : Option (Except StorageError Record) :=
  (table.find? key).map Row.decode

/-- The keys of the rows. -/
def keys (table : Table) : List Key := table.rows.map Row.key

theorem find?_eq_none {table : Table} {key : Key} : table.find? key = none ↔ key ∉ table.keys := by
  simp only [find?, keys, List.find?_eq_none, List.mem_map, decide_eq_true_eq, not_exists, not_and]

theorem mem_keys_iff {table : Table} {key : Key} :
    key ∈ table.keys ↔ (table.read? key).isSome = true := by
  rw [read?, Option.isSome_map, ← Option.ne_none_iff_isSome, Ne, find?_eq_none, not_not]

theorem decode_key {row : Row} {r : Record} (h : row.decode = .ok r) :
    r.key = row.key ∧ r.typeName = row.typeName := by
  obtain ⟨blob, -, rfl⟩ := Row.decode_eq_ok.1 h
  exact ⟨rfl, rfl⟩

theorem key_of_find? {table : Table} {key : Key} {row : Row} (h : table.find? key = some row) :
    row.key = key := by
  simpa using List.find?_some h

/-! ### Where a row goes -/

/-- The row in the place of the one with its key, or in the last place. -/
def put (updated : Row) : List Row → List Row
  | [] => [updated]
  | stored :: rows =>
    if stored.key = updated.key then updated :: rows else stored :: put updated rows

theorem find?_put (updated : Row) (rows : List Row) (key : Key) :
    (put updated rows).find? (·.key = key) =
      if key = updated.key then some updated else rows.find? (·.key = key) := by
  induction rows with
  | nil =>
    rw [put]
    by_cases hkey : key = updated.key
    · simp [hkey]
    · simp [hkey, Ne.symm hkey]
  | cons stored rows ih =>
    rw [put]
    by_cases hstored : stored.key = updated.key
    · rw [if_pos hstored]
      by_cases hkey : key = updated.key
      · simp [hkey]
      · simp [hkey, hstored, Ne.symm hkey]
    · rw [if_neg hstored]
      by_cases hkey : stored.key = key
      · have hother : key ≠ updated.key := fun h => hstored (hkey.trans h)
        simp [hkey, hother]
      · simpa [List.find?_cons, hkey] using ih

/-- The rows of other keys are the same, in the same order. -/
theorem filter_put {updated : Row} {keep : Key → Bool} (hkeep : keep updated.key = false)
    (rows : List Row) :
    ((put updated rows).filter fun row => keep row.key) = rows.filter fun row => keep row.key := by
  induction rows with
  | nil => simp [put, hkeep]
  | cons stored rows ih =>
    rw [put]
    split
    · rename_i hstored
      simp [hkeep, hstored]
    · rw [List.filter_cons, List.filter_cons, ih]

theorem keys_put (updated : Row) (rows : List Row) :
    (put updated rows).map Row.key =
      if updated.key ∈ rows.map Row.key then rows.map Row.key
      else rows.map Row.key ++ [updated.key] := by
  induction rows with
  | nil => rfl
  | cons stored rows ih =>
    rw [put]
    by_cases hstored : stored.key = updated.key
    · simp [hstored]
    · rw [if_neg hstored, List.map_cons, ih, List.map_cons]
      simp only [List.mem_cons, Ne.symm hstored, false_or]
      split <;> rfl

theorem forall_mem_put {P : Row → Prop} {updated : Row} {rows : List Row} (hupdated : P updated)
    (h : ∀ row ∈ rows, P row) : ∀ row ∈ put updated rows, P row := by
  induction rows with
  | nil => exact List.forall_mem_singleton.2 hupdated
  | cons stored rows ih =>
    obtain ⟨hstored, hrows⟩ := List.forall_mem_cons.1 h
    rw [put]
    split
    · exact List.forall_mem_cons.2 ⟨hupdated, hrows⟩
    · exact List.forall_mem_cons.2 ⟨hstored, ih hrows⟩

/-- The row is found under its key, and nothing else changes in the list of rows. -/
structure Replaces (updated : Row) (rows rows' : List Row) : Prop where
  find : ∀ key, rows'.find? (·.key = key) =
    if key = updated.key then some updated else rows.find? (·.key = key)
  others : ∀ keep : Key → Bool, keep updated.key = false →
    (rows'.filter fun row => keep row.key) = rows.filter fun row => keep row.key

theorem replaces_put (updated : Row) (rows : List Row) : Replaces updated rows (put updated rows) :=
  ⟨find?_put updated rows, fun _ hkeep => filter_put hkeep rows⟩

/-! ### What is written -/

variable {mode : WriteMode} {table written : Table}

/-- The row with this blob in the place of a stored one. -/
def replacement (mode : WriteMode) (stored row : Row) (blob : String) : Row where
  key := stored.key
  typeName := row.typeName
  blob := blob
  updatedDate := row.updatedDate
  receivedDate := if mode.trackDates then row.receivedDate else stored.receivedDate
  expirationDate := if mode.trackDates then row.expirationDate else stored.expirationDate

theorem updateRow_eq (mode : WriteMode) (stored row : Row) :
    updateRow mode stored row = replacement mode stored row <$>
      (if mode.overlay then Row.overlayBlob stored.blob row.blob else .ok row.blob) := by
  rw [updateRow]
  split
  · cases Row.overlayBlob stored.blob row.blob <;> rfl
  · rfl

theorem updateRow_ok {stored row updated : Row} (h : updateRow mode stored row = .ok updated) :
    ∃ blob, updated = replacement mode stored row blob := by
  rw [updateRow_eq] at h
  obtain ⟨blob, -, rfl⟩ := ok_of_map h
  exact ⟨blob, rfl⟩

/-- What becomes of the row under a key, if there is one, when a row of this key is written. -/
def absorb (mode : WriteMode) (stored : Option Row) (row : Row) : Except StorageError Row :=
  stored.elim (.ok row) fun stored => updateRow mode stored row

theorem absorb_ok {stored : Option Row} {row updated : Row}
    (hstored : ∀ old, stored = some old → old.key = row.key)
    (h : absorb mode stored row = .ok updated) :
    updated.key = row.key ∧ updated.updatedDate = row.updatedDate := by
  cases stored with
  | none =>
    cases h
    exact ⟨rfl, rfl⟩
  | some old =>
    obtain ⟨blob, rfl⟩ := updateRow_ok h
    exact ⟨hstored old rfl, rfl⟩

/-- A row that replaces the blob of another is never refused, and is read as it is. -/
theorem absorb_replace (hmode : mode.overlay = false) {stored : Option Row} {row : Row}
    (hstored : ∀ old, stored = some old → old.key = row.key) :
    ∃ updated, absorb mode stored row = .ok updated ∧ updated.decode = row.decode := by
  cases stored with
  | none => exact ⟨row, rfl, rfl⟩
  | some old =>
    refine ⟨replacement mode old row row.blob, ?_, ?_⟩
    · show updateRow mode old row = _
      rw [updateRow_eq, hmode]
      rfl
    · rw [Row.decode, Row.decode, replacement, hstored old rfl]

theorem upsertRow_eq_put (mode : WriteMode) (row : Row) (rows : List Row) :
    upsertRow mode row rows =
      (put · rows) <$> absorb mode (rows.find? (·.key = row.key)) row := by
  induction rows with
  | nil => rfl
  | cons stored rows ih =>
    rw [upsertRow]
    by_cases hstored : stored.key = row.key
    · rw [if_pos hstored, List.find?_cons_of_pos (by simpa using hstored), updateRow_eq]
      show _ = (put · (stored :: rows)) <$> updateRow mode stored row
      rw [updateRow_eq]
      cases (if mode.overlay then Row.overlayBlob stored.blob row.blob else .ok row.blob) with
      | error error => rfl
      | ok blob => exact congrArg Except.ok (if_pos rfl).symm
    · rw [if_neg hstored, List.find?_cons_of_neg (by simpa using hstored), ih]
      have hfound : ∀ old, rows.find? (·.key = row.key) = some old → old.key = row.key :=
        fun old hold => by simpa using List.find?_some hold
      cases habsorbed : absorb mode (rows.find? (·.key = row.key)) row with
      | error error => rfl
      | ok updated =>
        have hother : ¬stored.key = updated.key :=
          (absorb_ok hfound habsorbed).1.symm ▸ hstored
        exact congrArg Except.ok (if_neg hother).symm

/-- **Writing a row.** It becomes what it makes of the row under its key, and goes where that
was. -/
theorem upsert_eq_put (mode : WriteMode) (table : Table) (row : Row) :
    upsert mode table row = (fun updated => { table with rows := put updated table.rows }) <$>
      absorb mode (table.find? row.key) row := by
  rw [upsert, upsertRow_eq_put]
  show _ <$> _ <$> absorb mode (table.find? row.key) row = _
  cases absorb mode (table.find? row.key) row <;> rfl

/-- Writing a row changes what is found under its key. -/
theorem upsert_ok {row updated : Row}
    (h : absorb mode (table.find? row.key) row = .ok updated) :
    ∃ written, upsert mode table row = .ok written ∧ updated.key = row.key ∧
      Replaces updated table.rows written.rows := by
  have hkey := (absorb_ok (fun old hold => key_of_find? hold) h).1
  refine ⟨{ table with rows := put updated table.rows }, ?_, hkey, replaces_put _ _⟩
  rw [upsert_eq_put, h]
  rfl

/-- If a row was written, then what became of it is found under its key. -/
theorem absorb_of_upsert {row : Row} (h : upsert mode table row = .ok written) :
    ∃ updated, absorb mode (table.find? row.key) row = .ok updated ∧ updated.key = row.key ∧
      Replaces updated table.rows written.rows := by
  rw [upsert_eq_put] at h
  obtain ⟨updated, habsorbed, rfl⟩ := ok_of_map h
  have hkey := (absorb_ok (fun old hold => key_of_find? hold) habsorbed).1
  exact ⟨updated, habsorbed, hkey, replaces_put _ _⟩

theorem replaces_of_upsert {row : Row} (h : upsert mode table row = .ok written) :
    ∃ updated, updated.key = row.key ∧ updated.updatedDate = row.updatedDate ∧
      Replaces updated table.rows written.rows := by
  obtain ⟨updated, habsorbed, hkey, hreplaces⟩ := absorb_of_upsert h
  exact ⟨updated, hkey, (absorb_ok (fun old hold => key_of_find? hold) habsorbed).2, hreplaces⟩

/-- A row that is written stays in its place, and a new one goes to the end. -/
theorem keys_of_upsert {row : Row} (h : upsert mode table row = .ok written) :
    written.keys = if row.key ∈ table.keys then table.keys else table.keys ++ [row.key] := by
  rw [upsert_eq_put] at h
  obtain ⟨updated, habsorbed, rfl⟩ := ok_of_map h
  rw [← (absorb_ok (fun old hold => key_of_find? hold) habsorbed).1]
  exact keys_put updated table.rows

theorem nodup_keys_of_upsert {row : Row} (h : upsert mode table row = .ok written)
    (hnodup : table.keys.Nodup) : written.keys.Nodup := by
  rw [keys_of_upsert h]
  split
  · exact hnodup
  · rename_i hfresh
    exact List.nodup_append.2 ⟨hnodup, List.pairwise_singleton _ _, fun j hj k hk hjk =>
      hfresh (List.mem_singleton.1 hk ▸ hjk ▸ hj)⟩

/-- Writing a row in place of another never fails, and it is found from then on. -/
theorem upsert_replace (hmode : mode.overlay = false) (table : Table) (row : Row) :
    ∃ written, upsert mode table row = .ok written ∧ ∀ key, written.read? key =
      if key = row.key then some row.decode else table.read? key := by
  obtain ⟨updated, habsorbed, hdecode⟩ :=
    absorb_replace hmode fun old (hold : table.find? row.key = some old) => key_of_find? hold
  obtain ⟨written, hwritten, hkey, hreplaces⟩ := upsert_ok habsorbed
  refine ⟨written, hwritten, fun key => ?_⟩
  rw [read?, find?, hreplaces.find, hkey]
  split
  · exact congrArg some hdecode
  · rfl

/-- Of several rows written, the last one of a key is found. -/
theorem foldlM_upsert_replace (hmode : mode.overlay = false) (rows : List Row)
    (table : Table) : ∃ written : Table, rows.foldlM (upsert mode) table = .ok written ∧
      (table.keys.Nodup → written.keys.Nodup) ∧
      ∀ key, written.read? key =
        ((rows.reverse.find? fun row => row.key = key).map Row.decode).or (table.read? key) := by
  induction rows generalizing table with
  | nil => exact ⟨table, rfl, id, fun _ => rfl⟩
  | cons row rows ih =>
    obtain ⟨first, hfirst, hread⟩ := upsert_replace hmode table row
    obtain ⟨written, hwritten, hnodup, hfind⟩ := ih first
    refine ⟨written, ?_, fun h => hnodup (nodup_keys_of_upsert hfirst h), fun key => ?_⟩
    · rw [List.foldlM_cons, hfirst]
      exact hwritten
    · rw [hfind, hread, List.reverse_cons, List.find?_append]
      cases rows.reverse.find? fun row => row.key = key with
      | some found => rfl
      | none =>
        by_cases hkey : key = row.key
        · simp [hkey]
        · simp [hkey, Ne.symm hkey]

/-! ### Removals -/

theorem deleteWhere_congr {p q : Row → Bool} {table : Table}
    (h : ∀ row ∈ table.rows, p row = q row) : table.deleteWhere p = table.deleteWhere q := by
  rw [deleteWhere, deleteWhere, List.countP_congr fun row hrow => by rw [h row hrow],
    List.filter_congr fun row hrow => by rw [h row hrow]]

/-- Two removals are one. -/
theorem deleteWhere_deleteWhere (p q : Row → Bool) (table : Table) :
    ((table.deleteWhere p).1 + ((table.deleteWhere p).2.deleteWhere q).1,
      ((table.deleteWhere p).2.deleteWhere q).2) = table.deleteWhere fun row => p row || q row := by
  have hcount : ∀ rows : List Row, rows.countP p + (rows.filter fun row => !p row).countP q =
      rows.countP fun row => p row || q row := by
    intro rows
    induction rows with
    | nil => rfl
    | cons row rows ih =>
      cases hp : p row <;> cases hq : q row <;> simp_all <;> omega
  have hrows : (table.rows.filter fun row => !p row).filter (fun row => !q row) =
      table.rows.filter fun row => !(p row || q row) := by
    rw [List.filter_filter]
    exact List.filter_congr fun row _ => by rw [Bool.not_or, Bool.and_comm]
  simp only [deleteWhere, hcount, hrows]

theorem read?_deleteWhere (doomed : Key → Bool) (table : Table) (key : Key) :
    (table.deleteWhere fun row => doomed row.key).2.read? key =
      if doomed key then none else table.read? key := by
  have hfind : ∀ rows : List Row, (rows.filter fun row => !doomed row.key).find? (·.key = key) =
      if doomed key then none else rows.find? (·.key = key) := by
    intro rows
    induction rows with
    | nil => exact (ite_self none).symm
    | cons row rows ih =>
      by_cases hrow : row.key = key
      · cases hdoomed : doomed key <;> simp_all
      · cases hkept : doomed row.key <;> simp [hkept, hrow, ih]
  show ((table.rows.filter _).find? _).map _ = _
  rw [hfind]
  split <;> rfl

theorem nodup_keys_deleteWhere {doomed : Row → Bool} {table : Table} (h : table.keys.Nodup) :
    (table.deleteWhere doomed).2.keys.Nodup :=
  h.sublist (List.filter_sublist.map Row.key)

end Table
end RecordCache
