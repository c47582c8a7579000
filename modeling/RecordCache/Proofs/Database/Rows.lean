import RecordCache.Database
import RecordCache.Proofs.Batch
import RecordCache.Proofs.Table

/-!
# What statements keep of the rows

A statement reads rows, or changes some and leaves the others as they are. It may fail; what matters
here is that it does not fail for a row that cannot be read.

* `Clean` says how a statement ends: with a result that has a property, or with an error that is not
  about a row; `Clean.bind`, `mapM`, `foldlM` put statements together;
* `Database.Rows` says that all rows have a property;
* `Database.deleteChunks_clean`, `upsert_clean`: removals and writes keep such a property;
* `Database.select_clean`, `selectAll_clean`, `reachable_clean`: reading rows that can be read.
-/

namespace RecordCache

universe u v

/-- Whether the error speaks of a row that cannot be read. -/
def StorageError.isCorrupted : StorageError → Bool
  | corruptedRecord _ _ => true
  | _ => false

/-- The computation ends with a result that has the property, or fails, but not for a row that
cannot be read. -/
def Clean {α : Type u} (P : α → Prop) : Except StorageError α → Prop
  | .ok a => P a
  | .error error => error.isCorrupted = false

namespace Clean

variable {α : Type u} {β : Type u} {P : α → Prop} {Q : β → Prop}

theorem bind {x : Except StorageError α} {f : α → Except StorageError β} (h : Clean P x)
    (hf : ∀ a, P a → Clean Q (f a)) : Clean Q (x >>= f) := by
  cases x with
  | ok a => exact hf a h
  | error error => exact h

theorem map {x : Except StorageError α} {f : α → β} (h : Clean P x) (hf : ∀ a, P a → Q (f a)) :
    Clean Q (f <$> x) := by
  cases x with
  | ok a => exact hf a h
  | error error => exact h

theorem mono {P' : α → Prop} {x : Except StorageError α} (h : Clean P x) (hP : ∀ a, P a → P' a) :
    Clean P' x := by
  cases x with
  | ok a => exact hP a h
  | error error => exact h

theorem mapM {f : α → Except StorageError β} {xs : List α} (h : ∀ x ∈ xs, Clean Q (f x)) :
    Clean (fun ys : List β => ∀ y ∈ ys, Q y) (xs.mapM f) := by
  induction xs with
  | nil => exact List.forall_mem_nil _
  | cons x xs ih =>
    obtain ⟨hx, hxs⟩ := List.forall_mem_cons.1 h
    rw [List.mapM_cons]
    refine hx.bind fun y hy => (ih hxs).bind fun ys hys => ?_
    exact List.forall_mem_cons.2 ⟨hy, hys⟩

theorem foldlM {f : β → α → Except StorageError β} {xs : List α} {b : β} (hb : Q b)
    (h : ∀ b, Q b → ∀ x ∈ xs, Clean Q (f b x)) : Clean Q (xs.foldlM f b) := by
  induction xs generalizing b with
  | nil => exact hb
  | cons x xs ih =>
    rw [List.foldlM_cons]
    refine (h b hb x List.mem_cons_self).bind fun b hb => ?_
    exact ih hb fun b hb y hy => h b hb y (List.mem_cons_of_mem x hy)

end Clean

namespace Database

variable {P : Row → Prop} {db : Database}

/-- Every row has the property. -/
def Rows (P : Row → Prop) (db : Database) : Prop :=
  ∀ table, db.table = some table → ∀ row ∈ table.rows, P row

theorem requireTable_clean (h : db.Rows P) :
    Clean (fun table : Table => ∀ row ∈ table.rows, P row) db.requireTable := by
  rw [requireTable]
  cases htable : db.table with
  | none => exact rfl
  | some table => exact h table htable

theorem bind_clean (count : Nat) : Clean (fun _ : Unit => True) (bind count) := by
  rw [bind]
  split
  · exact trivial
  · exact rfl

/-- A statement that removes rows keeps what holds of all. -/
theorem delete_clean {statement : Table → Nat × Table}
    (hstatement : ∀ table, ∀ row ∈ (statement table).2.rows, row ∈ table.rows) (h : db.Rows P) :
    Clean (fun result : Nat × Database => result.2.Rows P) (db.delete statement) := by
  refine (requireTable_clean h).bind fun table htable => ?_
  rintro _ ⟨⟩ row hrow
  exact htable row (hstatement table row hrow)

theorem mem_of_mem_deleteWhere {doomed : Row → Bool} {table : Table} {row : Row}
    (h : row ∈ (table.deleteWhere doomed).2.rows) : row ∈ table.rows :=
  (List.mem_filter.1 h).1

theorem deleteChunks_clean {α : Type u} {statement : List α → Table → Nat × Table}
    (hstatement : ∀ chunk table, ∀ row ∈ (statement chunk table).2.rows, row ∈ table.rows)
    (chunks : List (List α)) (h : db.Rows P) :
    Clean (fun result : Nat × Database => result.2.Rows P) (deleteChunks statement chunks db) := by
  induction chunks generalizing db with
  | nil => exact h
  | cons chunk rest ih =>
    refine (bind_clean _).bind fun _ _ => ?_
    refine (delete_clean (hstatement chunk) h).bind fun removed hremoved => ?_
    exact (ih hremoved).bind fun _ hmore => hmore

theorem deleteKeys_clean (limit : Nat) (keys : List Key) (h : db.Rows P) :
    Clean (fun result : Nat × Database => result.2.Rows P) (db.deleteKeys limit keys) :=
  deleteChunks_clean (fun _ _ _ => mem_of_mem_deleteWhere) _ h

theorem deleteTypes_clean (limit : Nat) (types : List String) (h : db.Rows P) :
    Clean (fun result : Nat × Database => result.2.Rows P) (db.deleteTypes limit types) :=
  deleteChunks_clean (fun _ _ _ => mem_of_mem_deleteWhere) _ h

theorem deleteMatching_clean (glob : String) (h : db.Rows P) :
    Clean (fun result : Nat × Database => result.2.Rows P) (db.deleteMatching glob) := by
  refine (requireTable_clean h).bind fun table _ => ?_
  split
  · exact rfl
  · exact delete_clean (fun _ _ => mem_of_mem_deleteWhere) h

theorem deleteAll_clean (h : db.Rows P) :
    Clean (fun result : Nat × Database => result.2.Rows P) db.deleteAll :=
  delete_clean (fun _ _ => mem_of_mem_deleteWhere) h

theorem deleteOldest_clean (n : Nat) (h : db.Rows P) :
    Clean (fun result : Nat × Database => result.2.Rows P) (db.deleteOldest n) :=
  delete_clean (fun _ _ => mem_of_mem_deleteWhere) h

theorem upsertRow_clean {mode : WriteMode} {row : Row} (hrow : P row)
    (hupdate : ∀ stored, P stored → Clean P (Table.updateRow mode stored row)) {table : Table}
    (h : ∀ row ∈ table.rows, P row) :
    Clean (fun table : Table => ∀ row ∈ table.rows, P row) (Table.upsert mode table row) := by
  have habsorbed : Clean P (Table.absorb mode (table.find? row.key) row) := by
    cases hfound : table.find? row.key with
    | none => exact hrow
    | some stored => exact hupdate stored (h stored (List.mem_of_find?_eq_some hfound))
  rw [Table.upsert_eq_put]
  exact habsorbed.map fun updated hupdated => Table.forall_mem_put hupdated h

/-- Writing rows keeps what holds of all, when it holds of the rows written and of a stored row with
one of them written into its place. -/
theorem upsert_clean {mode : WriteMode} {rows : List Row} (limit : Nat)
    (hrows : ∀ row ∈ rows, P row)
    (hupdate : ∀ stored row, P stored → P row → Clean P (Table.updateRow mode stored row))
    (h : db.Rows P) : Clean (Rows P) (db.upsert mode limit rows) := by
  refine Clean.foldlM h fun db hdb chunk hchunk => ?_
  refine (requireTable_clean hdb).bind fun table htable => ?_
  refine (bind_clean _).bind fun _ _ => ?_
  have hwritten : Clean (fun table : Table => ∀ row ∈ table.rows, P row)
      (chunk.foldlM (Table.upsert mode) table) := by
    refine Clean.foldlM htable fun table htable row hrow => ?_
    have hP := hrows row (Batch.mem_of_mem_chunks hchunk hrow)
    exact upsertRow_clean hP (fun stored hstored => hupdate stored row hstored hP) htable
  exact hwritten.bind fun table htable => by
    rintro _ ⟨⟩
    exact htable

section Reading

variable {Q : Record → Prop} (hdecode : ∀ row, P row → Clean Q row.decode)

include hdecode

/-- The records read are those of rows. -/
theorem select_clean (limit : Nat) (keys : List Key) (h : db.Rows P) :
    Clean (fun records : List Record => ∀ r ∈ records, Q r) (db.select limit keys) := by
  have hchunk (chunk : List Key) :
      Clean (fun records : List Record => ∀ r ∈ records, Q r) (db.selectChunk chunk) := by
    refine (requireTable_clean h).bind fun table htable => ?_
    refine (bind_clean _).bind fun _ _ => Clean.mapM fun row hrow => ?_
    obtain ⟨key, -, hfind⟩ := List.mem_filterMap.1 hrow
    exact hdecode row (htable row (List.mem_of_find?_eq_some hfind))
  refine (Clean.mapM fun chunk _ => hchunk chunk).bind fun found hfound r hr => ?_
  obtain ⟨records, hrecords, hr⟩ := List.mem_flatten.1 hr
  exact hfound records hrecords r hr

theorem selectAll_clean (h : db.Rows P) :
    Clean (fun records : List Record => ∀ r ∈ records, Q r) db.selectAll :=
  (requireTable_clean h).bind fun _ htable =>
    Clean.mapM fun row hrow => hdecode row (htable row hrow)

/-- Following references reads rows, generation by generation. -/
theorem reachable_clean (limit : Nat) (keys : List Key) (h : db.Rows P) :
    Clean (fun _ : List Key => True) (db.reachable limit keys) := by
  have hreach (fuel : Nat) : ∀ visited frontier,
      Clean (fun _ : SortedSet Key => True) (db.reach limit fuel visited frontier) := by
    induction fuel with
    | zero => exact fun _ _ => trivial
    | succ fuel ih =>
      intro visited frontier
      rw [reach]
      split
      · exact trivial
      · exact (select_clean hdecode limit frontier h).bind fun _ _ => ih _ _
  exact (hreach _ _ _).bind fun _ _ => trivial

end Reading

end Database
end RecordCache
