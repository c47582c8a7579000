import RecordCache.Database
import RecordCache.Proofs.Batch
import RecordCache.Proofs.Table

/-!
# Batches and the statements they are split into

A batch is split into chunks, with a statement for each. Together the statements do what one for the
whole batch would do, however many parameters that would bind, unless one of them binds too many
itself and is refused. Only a limit beyond what a statement can bind lets that happen.

* `Database.UnlessRefused` says so of two computations, and is kept by what is done before and after
  them;
* `Database.Binds` says that no statement for a batch binds too many parameters;
* `Database.selectOnce`, `upsertOnce`, `deleteOnce` are the statements for whole batches; two
  batches one after the other are one batch (`selectOnce_append` and its like);
* `Database.select_unlessRefused`, `upsert_unlessRefused`, `deleteChunks_unlessRefused`: the chunks
  of a batch, by induction on them;
* `Database.select_limit`, `upsert_limit`, `reachable_limit` and their like: any limit beside the
  limit of one parameter.
-/

namespace RecordCache

universe u v

namespace Database

/-- The error of a statement that binds too many parameters. -/
def overbound : StorageError := .queryFailed "too many SQL variables"

/-- A computation gives what another one gives, or, under a condition, a statement of it is refused
for the number of its parameters. -/
inductive UnlessRefused {α : Type u} (P : Prop) :
    Except StorageError α → Except StorageError α → Prop
  | same (x : Except StorageError α) : UnlessRefused P x x
  | refused (y : Except StorageError α) (h : P) : UnlessRefused P (.error overbound) y

namespace UnlessRefused

variable {α : Type u} {β : Type v} {P : Prop} {x y : Except StorageError α}

theorem eq_of_not (h : UnlessRefused P x y) (hP : ¬P) : x = y := by
  cases h with
  | same => rfl
  | refused _ hrefused => exact absurd hrefused hP

theorem andThen (h : UnlessRefused P x y) {f g : α → Except StorageError β}
    (hfg : ∀ a, UnlessRefused P (f a) (g a)) : UnlessRefused P (x.bind f) (y.bind g) := by
  cases h with
  | refused _ hP => exact .refused _ hP
  | same =>
    cases x with
    | error error => exact .same (.error error)
    | ok a => exact hfg a

theorem map {α β : Type u} {x y : Except StorageError α} (h : UnlessRefused P x y) (f : α → β) :
    UnlessRefused P (f <$> x) (f <$> y) := by
  cases h with
  | same => exact .same _
  | refused _ hP => exact .refused _ hP

end UnlessRefused

/-- No statement binds too many parameters for a batch of so many keys or rows: either the limit of
a statement is small enough, or the batch is. -/
def Binds (limit count : Nat) : Prop := limit ≤ maxParameters ∨ count * 6 ≤ maxParameters

theorem columns_le (mode : WriteMode) : columns mode ≤ 6 := by
  rw [columns]
  split <;> decide

theorem Binds.one (limit : Nat) : Binds limit 1 := .inr (by decide)

theorem Binds.mono {limit count count' : Nat} (h : Binds limit count) (hle : count' ≤ count) :
    Binds limit count' :=
  h.imp_right fun hcount => Nat.le_trans (Nat.mul_le_mul_right 6 hle) hcount

theorem Binds.keys {α : Type u} {limit count : Nat} (h : Binds limit count) {xs : List α}
    (hxs : xs.length ≤ count) : ∀ chunk ∈ Batch.chunks limit xs, chunk.length ≤ maxParameters := by
  intro chunk hchunk
  have hsize := Batch.length_le_size_of_mem_chunks hchunk
  have hlength := Batch.length_le_length_of_mem_chunks hchunk
  have hone : 1 ≤ maxParameters := by decide
  rcases h with h | h <;> omega

theorem Binds.rows {limit count : Nat} (h : Binds limit count) (mode : WriteMode) {rows : List Row}
    (hrows : rows.length ≤ count) : ∀ chunk ∈ Batch.chunks (limit / columns mode) rows,
      chunk.length * columns mode ≤ maxParameters := by
  intro chunk hchunk
  have hsize := Batch.length_le_size_of_mem_chunks hchunk
  have hlength := Batch.length_le_length_of_mem_chunks hchunk
  have hcolumns := columns_le mode
  rcases h with h | h
  · rcases Nat.le_total (limit / columns mode) 1 with hfew | hmany
    · calc chunk.length * columns mode ≤ 1 * 6 := Nat.mul_le_mul (by omega) hcolumns
        _ ≤ maxParameters := by decide
    · calc chunk.length * columns mode ≤ limit / columns mode * columns mode :=
            Nat.mul_le_mul_right _ (by omega)
        _ ≤ limit := Nat.div_mul_le_self _ _
        _ ≤ maxParameters := h
  · calc chunk.length * columns mode ≤ count * 6 := Nat.mul_le_mul (by omega) hcolumns
      _ ≤ maxParameters := h

theorem bind_ok {count : Nat} (h : count ≤ maxParameters) : bind count = .ok () := if_pos h

variable {P : Prop} {limit : Nat}

/-- The first chunk of a batch that is too long, if the limit lets it be. -/
theorem bind_first {α : Type u} (first : α) {rest : List α} (hlimit : maxParameters < limit)
    (hlong : maxParameters < (first :: rest).length) :
    bind (first :: rest.take (limit - 1)).length = .error overbound := by
  refine if_neg fun hfew => ?_
  simp only [List.length_cons, List.length_take] at hfew hlong
  omega

theorem bind_unlessRefused {count : Nat} (h : ¬P → count ≤ maxParameters) :
    UnlessRefused P (bind count) (.ok ()) := by
  unfold bind
  split
  · exact .same _
  · rename_i hmany
    exact .refused _ (by_contra fun hP => hmany (h hP))

/-! ### Reading -/

/-- Reads the records of the keys with one statement, if there is any key. -/
def selectOnce (db : Database) (keys : List Key) : Except StorageError (List Record) :=
  if keys = [] then .ok []
  else db.requireTable.bind fun table => (keys.filterMap table.find?).mapM Row.decode

theorem selectOnce_some (table : Table) (keys : List Key) :
    selectOnce ⟨some table⟩ keys = (keys.filterMap table.find?).mapM Row.decode := by
  unfold selectOnce
  split
  · rename_i hempty
    subst hempty
    rfl
  · rfl

/-- Without a table only the empty batch can be read. -/
theorem selectOnce_append (db : Database) (keys more : List Key) :
    db.selectOnce (keys ++ more) = (db.selectOnce keys).bind fun records =>
      (db.selectOnce more).bind fun rest => .ok (records ++ rest) := by
  obtain ⟨_ | table⟩ := db
  · by_cases hkeys : keys = []
    · subst hkeys
      unfold selectOnce
      split <;> simp_all [Except.bind, requireTable]
    · simp [selectOnce, hkeys, requireTable, Except.bind]
  · simp only [selectOnce_some, List.filterMap_append, List.mapM_append]
    rfl

theorem selectChunk_unlessRefused (db : Database) {chunk : List Key} (hchunk : chunk ≠ [])
    (hfew : ¬P → chunk.length ≤ maxParameters) :
    UnlessRefused P (db.selectChunk chunk) (db.selectOnce chunk) := by
  rw [selectOnce, if_neg hchunk]
  exact (UnlessRefused.same _).andThen fun table =>
    (bind_unlessRefused hfew).andThen fun _ => .same _

/-- By induction on the chunks, each of which is read by a statement of its own. -/
theorem mapM_selectChunk_unlessRefused (db : Database) {chunks : List (List Key)}
    (hchunks : ∀ chunk ∈ chunks, chunk ≠ [])
    (hfew : ¬P → ∀ chunk ∈ chunks, chunk.length ≤ maxParameters) :
    UnlessRefused P (List.flatten <$> chunks.mapM db.selectChunk)
      (db.selectOnce chunks.flatten) := by
  induction chunks with
  | nil => exact .same _
  | cons chunk chunks ih =>
    obtain ⟨hchunk, hrest⟩ := List.forall_mem_cons.1 hchunks
    have hfirst := db.selectChunk_unlessRefused hchunk fun hP => hfew hP chunk List.mem_cons_self
    have hbehind := ih hrest fun hP other hother => hfew hP other (List.mem_cons_of_mem _ hother)
    have hsplit : (List.flatten <$> (chunk :: chunks).mapM db.selectChunk) =
        (db.selectChunk chunk).bind fun records =>
          (List.flatten <$> chunks.mapM db.selectChunk).bind fun rest => .ok (records ++ rest) := by
      rw [List.mapM_cons]
      cases db.selectChunk chunk with
      | error error => rfl
      | ok records => cases chunks.mapM db.selectChunk <;> rfl
    rw [hsplit, List.flatten_cons, selectOnce_append]
    exact hfirst.andThen fun records => hbehind.andThen fun rest => .same _

theorem select_unlessRefused (db : Database) {keys : List Key}
    (hfew : ¬P → ∀ chunk ∈ Batch.chunks limit (Batch.distinct keys),
      chunk.length ≤ maxParameters) :
    UnlessRefused P (db.select limit keys) (db.selectOnce (Batch.distinct keys)) := by
  have hall := db.mapM_selectChunk_unlessRefused (fun _ => Batch.ne_nil_of_mem_chunks) hfew
  rw [Batch.flatten_chunks] at hall
  exact hall

/-! ### Writing -/

/-- Writes rows with one statement, if there is any row. -/
def upsertOnce (mode : WriteMode) (db : Database) (rows : List Row) :
    Except StorageError Database :=
  if rows = [] then .ok db
  else db.requireTable.bind fun table =>
    (rows.foldlM (Table.upsert mode) table).bind fun table => .ok ⟨some table⟩

variable {mode : WriteMode}

theorem upsertOnce_some (table : Table) (rows : List Row) :
    upsertOnce mode ⟨some table⟩ rows =
      (fun table => ⟨some table⟩) <$> rows.foldlM (Table.upsert mode) table := by
  unfold upsertOnce
  split
  · rename_i hempty
    subst hempty
    rfl
  · show (rows.foldlM (Table.upsert mode) table).bind _ = _
    cases rows.foldlM (Table.upsert mode) table <;> rfl

theorem upsertOnce_append (db : Database) (rows more : List Row) :
    upsertOnce mode db (rows ++ more) =
      (upsertOnce mode db rows).bind fun db => upsertOnce mode db more := by
  obtain ⟨_ | table⟩ := db
  · by_cases hrows : rows = []
    · subst hrows
      rfl
    · simp [upsertOnce, hrows, requireTable, Except.bind]
  · rw [upsertOnce_some, upsertOnce_some, List.foldlM_append]
    cases rows.foldlM (Table.upsert mode) table with
    | error error => rfl
    | ok written => exact (upsertOnce_some written more).symm

theorem upsertChunk_unlessRefused (db : Database) {chunk : List Row} (hchunk : chunk ≠ [])
    (hfew : ¬P → chunk.length * columns mode ≤ maxParameters) :
    UnlessRefused P (upsertChunk mode db chunk) (upsertOnce mode db chunk) := by
  rw [upsertOnce, if_neg hchunk]
  exact (UnlessRefused.same _).andThen fun table =>
    (bind_unlessRefused hfew).andThen fun _ => .same _

theorem foldlM_upsertChunk_unlessRefused (db : Database) {chunks : List (List Row)}
    (hchunks : ∀ chunk ∈ chunks, chunk ≠ [])
    (hfew : ¬P → ∀ chunk ∈ chunks, chunk.length * columns mode ≤ maxParameters) :
    UnlessRefused P (chunks.foldlM (upsertChunk mode) db) (upsertOnce mode db chunks.flatten) := by
  induction chunks generalizing db with
  | nil => exact .same _
  | cons chunk chunks ih =>
    obtain ⟨hchunk, hrest⟩ := List.forall_mem_cons.1 hchunks
    have hfirst : UnlessRefused P (upsertChunk mode db chunk) (upsertOnce mode db chunk) :=
      upsertChunk_unlessRefused db hchunk fun hP => hfew hP chunk List.mem_cons_self
    have hbehind (db : Database) := ih db hrest fun hP other hother =>
      hfew hP other (List.mem_cons_of_mem _ hother)
    rw [List.foldlM_cons, List.flatten_cons, upsertOnce_append]
    exact hfirst.andThen hbehind

theorem upsert_unlessRefused (db : Database) {rows : List Row}
    (hfew : ¬P → ∀ chunk ∈ Batch.chunks (limit / columns mode) rows,
      chunk.length * columns mode ≤ maxParameters) :
    UnlessRefused P (db.upsert mode limit rows) (upsertOnce mode db rows) := by
  have hall := foldlM_upsertChunk_unlessRefused db (fun _ => Batch.ne_nil_of_mem_chunks) hfew
  rw [Batch.flatten_chunks] at hall
  exact hall

/-! ### Removing -/

/-- Removes the rows for which a column has one of the values with one statement, if there is any
value. -/
def deleteOnce {α : Type u} [BEq α] (column : Row → α) (db : Database) (values : List α) :
    Except StorageError (Nat × Database) :=
  if values.isEmpty then .ok (0, db)
  else db.delete (Table.deleteWhere fun row => values.contains (column row))

section Delete

variable {α : Type u} [BEq α] {column : Row → α}

theorem deleteOnce_some (table : Table) (values : List α) :
    deleteOnce column ⟨some table⟩ values =
      .ok ((table.deleteWhere fun row => values.contains (column row)).1,
        ⟨some (table.deleteWhere fun row => values.contains (column row)).2⟩) := by
  cases values with
  | nil => simp [deleteOnce, Table.deleteWhere]
  | cons value values => rfl

theorem deleteOnce_append (db : Database) (values more : List α) :
    deleteOnce column db (values ++ more) =
      (deleteOnce column db values).bind fun first =>
        (deleteOnce column first.2 more).bind fun rest => .ok (first.1 + rest.1, rest.2) := by
  obtain ⟨_ | table⟩ := db
  · cases values with
    | nil =>
      cases more <;> rfl
    | cons value values => rfl
  · have htwo := Table.deleteWhere_deleteWhere (fun row => values.contains (column row))
      (fun row => more.contains (column row)) table
    simp only [← List.contains_append] at htwo
    simp only [deleteOnce_some, Except.bind, ← htwo]

theorem deleteChunks_unlessRefused (column : Row → α) (db : Database) {chunks : List (List α)}
    (hchunks : ∀ chunk ∈ chunks, chunk ≠ [])
    (hfew : ¬P → ∀ chunk ∈ chunks, chunk.length ≤ maxParameters) :
    UnlessRefused P
      (deleteChunks (fun chunk => Table.deleteWhere fun row => chunk.contains (column row))
        chunks db)
      (deleteOnce column db chunks.flatten) := by
  induction chunks generalizing db with
  | nil => exact .same _
  | cons chunk chunks ih =>
    obtain ⟨hchunk, hrest⟩ := List.forall_mem_cons.1 hchunks
    have hfirst : UnlessRefused P (bind chunk.length) (.ok ()) :=
      bind_unlessRefused fun hP => hfew hP chunk List.mem_cons_self
    have hbehind (db : Database) := ih db hrest fun hP other hother =>
      hfew hP other (List.mem_cons_of_mem _ hother)
    have hone : deleteOnce column db chunk =
        db.delete (Table.deleteWhere fun row => chunk.contains (column row)) :=
      if_neg fun hempty => hchunk (List.isEmpty_iff.1 hempty)
    rw [List.flatten_cons, deleteOnce_append, hone]
    exact hfirst.andThen fun _ => (UnlessRefused.same _).andThen fun (first : Nat × Database) =>
      (hbehind first.2).andThen fun rest => .same _

end Delete

theorem deleteKeys_unlessRefused (db : Database) {keys : List Key}
    (hfew : ¬P → ∀ chunk ∈ Batch.chunks limit (Batch.distinct keys),
      chunk.length ≤ maxParameters) :
    UnlessRefused P (db.deleteKeys limit keys) (deleteOnce Row.key db (Batch.distinct keys)) := by
  have hall := deleteChunks_unlessRefused Row.key db (fun _ => Batch.ne_nil_of_mem_chunks) hfew
  rw [Batch.flatten_chunks] at hall
  exact hall

theorem deleteTypes_unlessRefused (db : Database) {types : List String}
    (hfew : ¬P → ∀ chunk ∈ Batch.chunks limit types, chunk.length ≤ maxParameters) :
    UnlessRefused P (db.deleteTypes limit types) (deleteOnce Row.typeName db types) := by
  have hall := deleteChunks_unlessRefused Row.typeName db (fun _ => Batch.ne_nil_of_mem_chunks) hfew
  rw [Batch.flatten_chunks] at hall
  exact hall

/-! ### Any limit beside the limit of one parameter -/

/-- What comes to one computation whatever the limit comes to what it is with a limit of one. -/
theorem unlessRefused_one {α : Type u} {x : Nat → Except StorageError α}
    {y : Except StorageError α}
    (h : ∀ limit, UnlessRefused (maxParameters < limit) (x limit) y) (limit : Nat) :
    UnlessRefused (maxParameters < limit) (x limit) (x 1) := by
  rw [(h 1).eq_of_not (by decide)]
  exact h limit

variable (limit)

theorem select_limit (db : Database) (keys : List Key) :
    UnlessRefused (maxParameters < limit) (db.select limit keys) (db.select 1 keys) :=
  unlessRefused_one (fun _ => db.select_unlessRefused fun hlimit =>
    Binds.keys (.inl (Nat.le_of_not_lt hlimit)) (Nat.le_refl _)) limit

theorem upsert_limit (mode : WriteMode) (rows : List Row) (db : Database) :
    UnlessRefused (maxParameters < limit) (db.upsert mode limit rows) (db.upsert mode 1 rows) :=
  unlessRefused_one (fun _ => db.upsert_unlessRefused fun hlimit =>
    Binds.rows (.inl (Nat.le_of_not_lt hlimit)) mode (Nat.le_refl _)) limit

theorem deleteKeys_limit (keys : List Key) (db : Database) :
    UnlessRefused (maxParameters < limit) (db.deleteKeys limit keys) (db.deleteKeys 1 keys) :=
  unlessRefused_one (fun _ => db.deleteKeys_unlessRefused fun hlimit =>
    Binds.keys (.inl (Nat.le_of_not_lt hlimit)) (Nat.le_refl _)) limit

theorem deleteTypes_limit (types : List String) (db : Database) :
    UnlessRefused (maxParameters < limit) (db.deleteTypes limit types)
      (db.deleteTypes 1 types) :=
  unlessRefused_one (fun _ => db.deleteTypes_unlessRefused fun hlimit =>
    Binds.keys (.inl (Nat.le_of_not_lt hlimit)) (Nat.le_refl _)) limit

/-- By induction on the generations, each of which is read by statements of its own. -/
theorem reach_limit (db : Database) (fuel : Nat) (visited : SortedSet Key) (frontier : List Key) :
    UnlessRefused (maxParameters < limit) (db.reach limit fuel visited frontier)
      (db.reach 1 fuel visited frontier) := by
  induction fuel generalizing visited frontier with
  | zero => exact .same _
  | succ fuel ih =>
    unfold reach
    split
    · exact .same _
    · exact (db.select_limit limit frontier).andThen fun records => ih _ _

theorem reachable_limit (db : Database) (keys : List Key) :
    UnlessRefused (maxParameters < limit) (db.reachable limit keys) (db.reachable 1 keys) :=
  (db.reach_limit limit _ _ _).andThen fun _ => .same _

end Database
end RecordCache
