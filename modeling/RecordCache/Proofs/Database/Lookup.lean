import RecordCache.Proofs.Database.Chunks
import RecordCache.Proofs.Pattern.Glob

/-!
# What statements do to lookups

A table is read by looking records up by key, and every statement is determined by what it does to
these lookups and to the list of keys. Statements do what they say as long as none binds too many
parameters.

* `Database.select_eq`, `upsert_eq`, `deleteKeys_eq` and `deleteTypes_eq`: a batch does what one
  statement for all of it would do;
* `Database.deleteMatching_eq`: the rows that the glob of a pattern finds are those that the pattern
  accepts.
-/

namespace RecordCache

namespace Database

/-- A batch is read as with one statement. -/
theorem select_eq {limit : Nat} {keys : List Key} (table : Table)
    (hbinds : Binds limit (Batch.distinct keys).length) :
    select ⟨some table⟩ limit keys =
      ((Batch.distinct keys).filterMap table.find?).mapM Row.decode := by
  have honce := select_unlessRefused (P := False) ⟨some table⟩ fun _ => hbinds.keys (Nat.le_refl _)
  rw [honce.eq_of_not not_false, selectOnce_some]

/-- Rows are written as with one statement. -/
theorem upsert_eq {mode : WriteMode} {limit count : Nat} {rows : List Row} (table : Table)
    (hbinds : Binds limit count) (hrows : rows.length ≤ count) :
    upsert mode limit rows ⟨some table⟩ =
      (fun table => ⟨some table⟩) <$> rows.foldlM (Table.upsert mode) table := by
  have honce := upsert_unlessRefused (P := False) ⟨some table⟩ fun _ => hbinds.rows mode hrows
  rw [honce.eq_of_not not_false, upsertOnce_some]

/-- Of the rows of a batch written in place of others, the last one of a key is found. -/
theorem upsert_replace {limit count : Nat} (trackDates : Bool) {rows : List Row} (table : Table)
    (hbinds : Binds limit count) (hrows : rows.length ≤ count) :
    ∃ written : Table, upsert ⟨false, trackDates⟩ limit rows ⟨some table⟩ = .ok ⟨some written⟩ ∧
      rows.foldlM (Table.upsert ⟨false, trackDates⟩) table = .ok written ∧
      (table.keys.Nodup → written.keys.Nodup) ∧
      ∀ key, written.read? key =
        ((rows.reverse.find? fun row => row.key = key).map Row.decode).or (table.read? key) := by
  have hmode : (WriteMode.mk false trackDates).overlay = false := rfl
  obtain ⟨written, hwritten, hnodup, hread⟩ := Table.foldlM_upsert_replace hmode rows table
  refine ⟨written, ?_, hwritten, hnodup, hread⟩
  rw [upsert_eq table hbinds hrows, hwritten]
  rfl

/-- Rows are removed as with one statement. -/
theorem deleteKeys_eq {limit : Nat} {keys : List Key} (table : Table)
    (hbinds : Binds limit keys.length) :
    deleteKeys limit keys ⟨some table⟩ =
      .ok ((table.deleteWhere fun row => keys.contains row.key).1,
        ⟨some (table.deleteWhere fun row => keys.contains row.key).2⟩) := by
  have hdistinct : ∀ key, (Batch.distinct keys).contains key = keys.contains key := by
    intro key
    rw [Bool.eq_iff_iff, List.contains_iff_mem, List.contains_iff_mem, Batch.mem_distinct]
  have honce := deleteKeys_unlessRefused (P := False) ⟨some table⟩ fun _ =>
    hbinds.keys (Batch.length_distinct_le keys)
  simp only [honce.eq_of_not not_false, deleteOnce_some, hdistinct]

theorem deleteTypes_eq {limit : Nat} {types : List String} (table : Table)
    (hbinds : Binds limit types.length) :
    deleteTypes limit types ⟨some table⟩ =
      .ok ((table.deleteWhere fun row => types.contains row.typeName).1,
        ⟨some (table.deleteWhere fun row => types.contains row.typeName).2⟩) := by
  have honce := deleteTypes_unlessRefused (P := False) ⟨some table⟩ fun _ =>
    hbinds.keys (Nat.le_refl types.length)
  rw [honce.eq_of_not not_false, deleteOnce_some]

/-- Rows are removed by a pattern, if its glob is served as it is meant. -/
theorem deleteMatching_eq (table : Table) {pattern : Pattern}
    (hserves : ∀ row ∈ table.rows, Glob.Serves pattern.glob row.key) :
    deleteMatching pattern.glob ⟨some table⟩ =
      .ok ((table.deleteWhere fun row => pattern.accepts row.key).1,
        ⟨some (table.deleteWhere fun row => pattern.accepts row.key).2⟩) := by
  have hallowed : (Glob.isTooLong pattern.glob &&
      table.rows.any fun row => Glob.compares pattern.glob row.key) = false := by
    cases hlong : Glob.isTooLong pattern.glob with
    | false => rfl
    | true =>
      rw [Bool.true_and, List.any_eq_false]
      intro row hrow
      have hcompares := (hserves row hrow).compares
      rw [hlong, Bool.true_and] at hcompares
      exact Bool.eq_false_iff.1 hcompares
  have hselects : table.deleteMatching pattern.glob =
      table.deleteWhere fun row => pattern.accepts row.key :=
    Table.deleteWhere_congr fun row hrow => by
      rw [(hserves row hrow).selects, Pattern.accepts_glob]
  rw [deleteMatching]
  simp only [requireTable, Bind.bind, Except.bind, hallowed, if_neg Bool.false_ne_true, delete,
    hselects]
  rfl

end Database
end RecordCache
