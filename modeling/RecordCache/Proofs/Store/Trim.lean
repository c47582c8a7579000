import RecordCache.Proofs.Sorting
import RecordCache.Proofs.Store.History

/-!
# Trims

A trim sorts the rows by the date of their last write and removes the first ones. The sort leaves
rows of one date in the order in which they stand in the table, which is that of their first writes.

* `Table.perm_oldestFirst`, `filter_oldestFirst`: the sort puts the rows in another order, and those
  of one date not;
* `Table.pairwise_oldestFirst`: which row comes before which;
* `Table.countP_isOldest`, `Table.before_of_isOldest`: how many rows go, and which;
* `Store.trim_below`, `trim_reached`: a trim on the two sides of the size to trim at;
* `Store.trim_removes_oldest`: a trim after any run.
-/

namespace RecordCache

namespace Table

variable {table : Table}

/-- The first row is not the younger one. -/
def notYounger (a b : Row) : Bool := a.updatedDate ≤ b.updatedDate

theorem notYounger_trans (a b c : Row) (hab : notYounger a b = true) (hbc : notYounger b c = true) :
    notYounger a c = true := by
  simp only [notYounger, decide_eq_true_eq] at *
  exact Int64.le_trans hab hbc

theorem notYounger_total (a b : Row) : (notYounger a b || notYounger b a) = true := by
  simpa [notYounger] using Int64.le_total a.updatedDate b.updatedDate

theorem perm_oldestFirst (table : Table) : table.oldestFirst.Perm table.rows :=
  List.mergeSort_perm _ _

/-- Rows of one date are in no order to be sorted by, and so they stay in theirs. -/
theorem filter_oldestFirst (table : Table) (date : Int64) :
    (table.oldestFirst.filter fun row => row.updatedDate = date) =
      table.rows.filter fun row => row.updatedDate = date :=
  Sorting.filter_mergeSort notYounger_trans notYounger_total
    (fun a b ha hb => by simp [notYounger, of_decide_eq_true ha, of_decide_eq_true hb]) _

/-- An older row comes first, and of two of one date the one that comes first in the table. -/
theorem pairwise_oldestFirst {R : Row → Row → Prop} (h : table.rows.Pairwise R) :
    table.oldestFirst.Pairwise fun a b =>
      a.updatedDate < b.updatedDate ∨ a.updatedDate = b.updatedDate ∧ R a b := by
  rw [List.pairwise_iff_forall_sublist]
  intro a b hpair
  have hsorted := List.pairwise_mergeSort notYounger_trans notYounger_total table.rows
  have hle : a.updatedDate ≤ b.updatedDate := by
    simpa [notYounger] using List.pairwise_iff_forall_sublist.1 hsorted hpair
  rcases Int64.lt_or_eq_of_le hle with hlt | heq
  · exact .inl hlt
  · -- among the rows of their date the two stand as in the table
    refine .inr ⟨heq, List.pairwise_iff_forall_sublist.1 h ?_⟩
    have hdated := hpair.filter fun row => row.updatedDate = b.updatedDate
    rw [filter_oldestFirst] at hdated
    simp only [heq, decide_true, List.filter_cons_of_pos, List.filter_nil] at hdated
    exact hdated.trans List.filter_sublist

/-- The rows that go when so many of the oldest are to go. -/
def isOldest (n : Nat) (table : Table) (row : Row) : Bool :=
  ((table.oldestFirst.take n).map Row.key).contains row.key

section

variable (hnodup : table.keys.Nodup)

include hnodup

theorem isOldest_iff {n : Nat} {row : Row} (hrow : row ∈ table.rows) :
    table.isOldest n row = true ↔ row ∈ table.oldestFirst.take n := by
  rw [isOldest, List.contains_iff_mem, List.mem_map]
  constructor
  · rintro ⟨other, hother, hkey⟩
    have hmem : other ∈ table.rows :=
      table.perm_oldestFirst.subset (List.mem_of_mem_take hother)
    exact List.inj_on_of_nodup_map hnodup hmem hrow hkey ▸ hother
  · exact fun hmem => ⟨row, hmem, rfl⟩

/-- Rows do not repeat, so that those behind the first ones are not among them. -/
theorem not_mem_take {n : Nat} {row : Row} (h : row ∈ table.oldestFirst.drop n) :
    row ∉ table.oldestFirst.take n := by
  have hrows : table.oldestFirst.Nodup :=
    table.perm_oldestFirst.nodup_iff.2 (List.Nodup.of_map Row.key hnodup)
  rw [← List.take_append_drop n table.oldestFirst, List.nodup_append] at hrows
  exact fun hmem => hrows.2.2 row hmem row h rfl

/-- **How many go.** -/
theorem countP_isOldest (n : Nat) : table.rows.countP (table.isOldest n) = min n table.count := by
  have hmem : ∀ row ∈ table.oldestFirst, row ∈ table.rows :=
    fun row hrow => table.perm_oldestFirst.subset hrow
  have htaken : (table.oldestFirst.take n).countP (table.isOldest n) =
      (table.oldestFirst.take n).length := by
    rw [List.countP_eq_length]
    intro row hrow
    exact (isOldest_iff hnodup (hmem row (List.mem_of_mem_take hrow))).2 hrow
  have hleft : (table.oldestFirst.drop n).countP (table.isOldest n) = 0 := by
    rw [List.countP_eq_zero]
    intro row hrow holdest
    rw [isOldest_iff hnodup (hmem row (List.mem_of_mem_drop hrow))] at holdest
    exact not_mem_take hnodup hrow holdest
  calc table.rows.countP (table.isOldest n)
      = table.oldestFirst.countP (table.isOldest n) := (table.perm_oldestFirst.countP_eq _).symm
    _ = (table.oldestFirst.take n).countP (table.isOldest n) +
          (table.oldestFirst.drop n).countP (table.isOldest n) := by
        rw [← List.countP_append, List.take_append_drop]
    _ = min n table.count := by
        rw [htaken, hleft, Nat.add_zero, List.length_take, table.perm_oldestFirst.length_eq]
        rfl

/-- **Which go.** -/
theorem before_of_isOldest {R : Row → Row → Prop} (h : table.rows.Pairwise R) {n : Nat}
    {gone left : Row} (hgone : gone ∈ table.rows) (hoffGone : table.isOldest n gone = true)
    (hleft : left ∈ table.rows) (hstays : table.isOldest n left = false) :
    gone.updatedDate < left.updatedDate ∨ gone.updatedDate = left.updatedDate ∧ R gone left := by
  have hsorted := pairwise_oldestFirst h
  rw [← List.take_append_drop n table.oldestFirst, List.pairwise_append] at hsorted
  refine hsorted.2.2 gone ((isOldest_iff hnodup hgone).1 hoffGone) left ?_
  have hmem : left ∈ table.oldestFirst.take n ++ table.oldestFirst.drop n := by
    rw [List.take_append_drop]
    exact table.perm_oldestFirst.symm.subset hleft
  refine (List.mem_append.1 hmem).resolve_left fun htaken => ?_
  rw [(isOldest_iff hnodup hleft).2 htaken] at hstays
  cases hstays

end

/-- By the history of the table: the rows that go were written longest ago. -/
theorem Follows.older {history : History} (h : table.Follows history) {n : Nat} {gone left : Row}
    (hgone : gone ∈ table.rows) (hgoes : table.isOldest n gone = true)
    (hleft : left ∈ table.rows) (hstays : table.isOldest n left = false) :
    history.Older gone.key left.key := by
  have hordered : table.rows.Pairwise fun a b => history.Before a.key b.key :=
    List.pairwise_map.1 h.ordered
  refine ⟨_, _, h.dated _ _ (find?_of_mem h.nodup hgone), h.dated _ _ (find?_of_mem h.nodup hleft),
    ?_⟩
  rw [← Int64.lt_iff_toInt_lt, Int64.toInt_inj]
  exact before_of_isOldest h.nodup hordered hgone hgoes hleft hstays

end Table

/-- The table after a trim that has reached the size to trim at. -/
def Database.trimmed (factor : Binary64) (db : Database) : Except StorageError Database := do
  let count ← db.count
  let deleted ← db.deleteOldest (Store.doomed count factor)
  return deleted.2

/-- The share of the rows that come first goes. -/
theorem Database.trimmed_eq (table : Table) (factor : Binary64) :
    trimmed factor ⟨some table⟩ = .ok ((Database.mk (some table)).keeping fun row =>
      !table.isOldest (Store.doomed table.count factor) row) := rfl

namespace Store

variable {s : Store}

theorem trimIn_reached {maxSize : Nat} {sizes : FileSizes} (hsize : ¬sizes.before < maxSize)
    (factor : Binary64) (db : Database) :
    trimIn maxSize factor sizes db = (some sizes.after, ·) <$> db.trimmed factor := by
  rw [trimIn, if_neg hsize, Database.trimmed]
  cases db.count with
  | error error => rfl
  | ok count =>
    simp only [bind, Except.bind]
    cases db.deleteOldest (doomed count factor) with
    | error error => rfl
    | ok deleted => rfl

theorem trim_below {maxSize : Nat} {sizes : FileSizes} (hsize : sizes.before < maxSize)
    (factor : Binary64) : s.trim maxSize factor sizes = ⟨some sizes.before, s, []⟩ := by
  rw [trim, run, trimIn, if_pos hsize]
  rfl

theorem trim_reached {table : Table} (hdatabase : s.database = ⟨some table⟩) {maxSize : Nat}
    {sizes : FileSizes} (hsize : maxSize ≤ sizes.before) (factor : Binary64) :
    s.trim maxSize factor sizes = ⟨some sizes.after,
      { s with database :=
        s.database.keeping fun row => !table.isOldest (doomed table.count factor) row }, []⟩ := by
  rw [trim, run, trimIn_reached (Nat.not_lt.2 hsize), hdatabase, Database.trimmed_eq]
  rfl

/-- When as many rows are to go as there are, none is left. -/
theorem trim_all {table : Table} (hdatabase : s.database = ⟨some table⟩) {maxSize : Nat}
    (sizes : FileSizes) (hsize : maxSize ≤ sizes.before) {factor : Binary64}
    (hall : table.count ≤ doomed table.count factor) :
    (s.trim maxSize factor sizes).state.database = ⟨some ⟨[], table.hasDates⟩⟩ := by
  have hoff : ∀ row ∈ table.rows,
      ¬(!table.isOldest (doomed table.count factor) row) = true := by
    intro row hrow
    have htaken : table.oldestFirst.take (doomed table.count factor) = table.oldestFirst :=
      List.take_of_length_le (table.perm_oldestFirst.length_eq.trans_le hall)
    rw [Table.isOldest, htaken, List.contains_iff_mem.2 (List.mem_map_of_mem
      (table.perm_oldestFirst.symm.subset hrow))]
    exact Bool.false_ne_true
  rw [trim_reached hdatabase hsize factor, hdatabase]
  show (⟨some ⟨table.rows.filter _, table.hasDates⟩⟩ : Database) = _
  rw [List.filter_eq_nil_iff.2 hoff]

/-- **Trims remove the oldest writes.** After any run of a new store, a trim leaves everything as it
is while the file is found smaller than the size to trim at. From that size on it takes away the
rows that come first by the date of their last write, and among those of one date by their first
write since they were last removed, as many as the factor says of the rows there are. The others
stay as they are, in their order. -/
theorem trim_removes_oldest (config : StoreConfig) (commands : List (Instant × Command))
    (maxSize : Nat) (factor : Binary64) (sizes : FileSizes) :
    let s := (recorded config commands).1
    let history := (recorded config commands).2
    (Chain.store (new config)).after commands = .store s ∧
    (sizes.before < maxSize → s.trim maxSize factor sizes = ⟨some sizes.before, s, []⟩) ∧
    (maxSize ≤ sizes.before → ∃ (rows : List Row) (hasDates : Bool) (goes : Row → Bool),
      let left : Database := ⟨some ⟨rows.filter fun row => !goes row, hasDates⟩⟩
      s.database = ⟨some ⟨rows, hasDates⟩⟩ ∧
      s.trim maxSize factor sizes = ⟨some sizes.after, { s with database := left }, []⟩ ∧
      rows.countP goes = min (doomed rows.length factor) rows.length ∧
      ∀ gone ∈ rows, goes gone = true → ∀ kept ∈ rows, goes kept = false →
        history.Older gone.key kept.key) := by
  intro s history
  obtain ⟨table, hdatabase, hfollows⟩ := recorded_follows config commands
  refine ⟨after_store config commands, fun hsize => trim_below hsize factor, fun hsize => ?_⟩
  have htrim := trim_reached hdatabase hsize factor
  refine ⟨table.rows, table.hasDates, table.isOldest (doomed table.count factor), hdatabase, ?_,
    Table.countP_isOldest hfollows.nodup _, ?_⟩
  · rw [hdatabase] at htrim
    exact htrim
  · exact fun gone hgone hgoes kept hkept hstays => hfollows.older hgone hgoes hkept hstays

/-- Five records, dated by the clock or by a header, the last of them beyond 64 bits. The first one
is written again, which gives it the date of the second and the third and leaves it its place before
them. A trim by a half removes three: the one with the oldest date, and of those of one date the
first two. -/
theorem trim_removes_oldest_of_five :
    let record (name : String) := (Record.new ⟨name⟩ "T").withField "x" (.int 1)
    let merge (name : String) (headers : Headers) : Command :=
      .merge [record name] headers Merger.overwrite
    let received (seconds : Int64) := Headers.none.addInt64 Headers.receivedDate seconds
    let millisecond (n : Nat) : Instant := ⟨n * 1000000⟩
    let commands : List (Instant × Command) :=
      [(millisecond 1, merge "a" Headers.none), (millisecond 2, merge "b" (received 7)),
        (millisecond 7000, merge "c" Headers.none), (millisecond 3, merge "a" (received 7)),
        (millisecond 8, merge "d" Headers.none),
        (millisecond 9, merge "e" (received 9223372036854775807))]
    let half : Binary64 := ⟨0x3FE0000000000000⟩
    let s := (recorded {} commands).1
    let history := (recorded {} commands).2
    ["a", "b", "c", "d", "e"].map (fun name => history.lastWrite ⟨name⟩) =
        [some 7000, some 7000, some 7000, some 8, some 9223372036854775807] ∧
    s.trim 8193 half ⟨8192, 4096⟩ = ⟨some 8192, s, []⟩ ∧
    (∃ (rows : List Row) (hasDates : Bool) (goes : Row → Bool),
      let left : Database := ⟨some ⟨rows.filter fun row => !goes row, hasDates⟩⟩
      s.database = ⟨some ⟨rows, hasDates⟩⟩ ∧
      s.trim 8192 half ⟨8192, 4096⟩ = ⟨some 4096, { s with database := left }, []⟩ ∧
      rows.countP goes = min (doomed rows.length half) rows.length ∧
      ∀ gone ∈ rows, goes gone = true → ∀ kept ∈ rows, goes kept = false →
        history.Older gone.key kept.key) ∧
    (s.trim 8192 half ⟨8192, 4096⟩).state.database.rowKeys = [⟨"c"⟩, ⟨"e"⟩] := by
  intro record merge received millisecond commands half s history
  obtain ⟨-, -, hreached⟩ := trim_removes_oldest {} commands 8192 half ⟨8192, 4096⟩
  obtain ⟨-, hbelow, -⟩ := trim_removes_oldest {} commands 8193 half ⟨8192, 4096⟩
  refine ⟨by decide +kernel, hbelow (by decide), hreached (by decide), ?_⟩
  let row (name : String) (date : Int64) : Row :=
    (WriteDates.mk date none none).row false (record name)
  let table : Table :=
    ⟨[row "a" 7000, row "b" 7000, row "c" 7000, row "d" 8, row "e" 9223372036854775807], false⟩
  have hdatabase : s.database = ⟨some table⟩ := by decide +kernel
  have hsorted : table.oldestFirst =
      [row "d" 8, row "a" 7000, row "b" 7000, row "c" 7000, row "e" 9223372036854775807] := by
    simp [table, row, WriteDates.row, Table.oldestFirst, List.mergeSort,
      List.MergeSort.Internal.splitInTwo]
  have hthree : doomed table.count half = 3 := by decide +kernel
  have hgone : table.isOldest 3 = fun row => [⟨"d"⟩, ⟨"a"⟩, ⟨"b"⟩].contains row.key := by
    funext row
    rw [Table.isOldest, hsorted]
    rfl
  rw [trim_reached hdatabase (by decide) half, hthree, hgone, hdatabase]
  decide +kernel

end Store
end RecordCache
