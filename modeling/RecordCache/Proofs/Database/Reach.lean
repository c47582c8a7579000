import Mathlib.Data.Finset.Card
import RecordCache.Proofs.Database.Unreadable

/-!
# Keys reached in a table

The statements that follow references go one generation of keys at a time. A generation that reads
no new row is the last, so that there is enough fuel for all of them.

* `Table.Holds` says what the records of a table are;
* `Database.Reached` are the keys reached through the rows that can be read;
* `Database.mem_visitReferences`: one generation, `Database.visited_detects`: after the last one;
* `Database.unread` bounds the generations to come;
* `Database.reach_detects`, `reachable_detects`: a row of a key reached that cannot be read is
  found, and `reachable_ok`: where there is none, the keys found are those reached.
-/

namespace RecordCache

/-- There is one row for each record, which is read from it. -/
structure Table.Holds (table : Table) (c : Contents) : Prop where
  nodup : table.keys.Nodup
  read : ∀ key, table.read? key = (c.find? key).map .ok

namespace Table.Holds

variable {table : Table} {c : Contents}

theorem mem_keys_iff (h : table.Holds c) {key : Key} : key ∈ table.keys ↔ key ∈ c.keys := by
  rw [Table.mem_keys_iff, h.read, Option.isSome_map, SortedMap.mem_keys, Option.isSome_iff_exists]

theorem not_unreadable (h : table.Holds c) (key : Key) :
    ¬Database.Unreadable ⟨some table⟩ key := by
  rintro ⟨error, herror⟩
  have hread : (c.find? key).map Except.ok = some (.error error) := (h.read key).symm.trans herror
  cases hfind : c.find? key <;> simp [hfind] at hread

theorem readable_eq (h : table.Holds c) : Database.readable ⟨some table⟩ = c := by
  refine SortedMap.ext fun key => Option.ext fun r => ?_
  have hread : Database.read? ⟨some table⟩ key = (c.find? key).map .ok := h.read key
  rw [Database.find?_readable, hread]
  cases c.find? key <;> simp

theorem count_eq (h : table.Holds c) : table.count = c.size := by
  have hperm : table.keys.Perm c.keys :=
    (List.perm_ext_iff_of_nodup h.nodup c.nodup_keys).2 fun _ => h.mem_keys_iff
  have hlength := hperm.length_eq
  rwa [keys, List.length_map, SortedMap.keys, List.length_map] at hlength

end Table.Holds

namespace Database

/-- Keys that are visited one after the other: those not seen before are also put on a list. -/
theorem mem_foldl_visit (keys : List Key) (visited : SortedSet Key) (fresh : List Key) (key : Key) :
    let visit (seen : SortedSet Key × List Key) (key : Key) :=
      if seen.1.contains key then seen else (seen.1.insert key, seen.2 ++ [key])
    ((keys.foldl visit (visited, fresh)).1.contains key = true ↔
        visited.contains key = true ∨ key ∈ keys) ∧
      (key ∈ (keys.foldl visit (visited, fresh)).2 ↔
        key ∈ fresh ∨ ¬visited.contains key = true ∧ key ∈ keys) := by
  intro visit
  induction keys generalizing visited fresh with
  | nil => simp
  | cons k keys ih =>
    rw [List.foldl_cons]
    dsimp only [visit]
    by_cases hk : visited.contains k = true
    · rw [if_pos hk]
      obtain ⟨hseen, hfresh⟩ := ih visited fresh
      rw [hseen, hfresh, List.mem_cons]
      by_cases hkey : key = k
      · simp [hkey, hk]
      · simp [hkey]
    · rw [if_neg hk]
      obtain ⟨hseen, hfresh⟩ := ih (visited.insert k) (fresh ++ [k])
      rw [hseen, hfresh, SortedSet.contains_insert, List.mem_append, List.mem_singleton,
        List.mem_cons]
      by_cases hkey : key = k
      · simp [hkey, hk]
      · simp [hkey]

/-- A generation of references adds the keys referred to, and those among them that are new make up
the next frontier. -/
theorem mem_visitReferences (visited : SortedSet Key) (records : List Record) (key : Key) :
    ((visitReferences visited records).1.contains key = true ↔ visited.contains key = true ∨
        ∃ r ∈ records, r.referencedKeys.contains key = true) ∧
      (key ∈ (visitReferences visited records).2 ↔ ¬visited.contains key = true ∧
        ∃ r ∈ records, r.referencedKeys.contains key = true) := by
  have hmem : key ∈ records.flatMap (fun r => r.referencedKeys.toList) ↔
      ∃ r ∈ records, r.referencedKeys.contains key = true := by
    simp only [List.mem_flatMap, SortedSet.mem_toList]
  obtain ⟨hseen, hfresh⟩ :=
    mem_foldl_visit (records.flatMap fun r => r.referencedKeys.toList) visited [] key
  rw [hmem] at hseen hfresh
  exact ⟨hseen, hfresh.trans (by simp)⟩

/-- The keys with a record that was not read yet. -/
def unread (c : Contents) (visited : SortedSet Key) (frontier : List Key) : Finset Key :=
  c.keys.toFinset.filter fun key => ¬visited.contains key = true ∨ key ∈ frontier

variable {db : Database} {table : Table} {c : Contents} {keys : List Key} {limit : Nat}

/-- The keys reached from some others: these, and those that the record of a key reached refers to.
-/
inductive Reached (db : Database) (keys : List Key) : Key → Prop
  | given {key : Key} : key ∈ keys → Reached db keys key
  | referred {key next : Key} {r : Record} : Reached db keys key →
      db.read? key = some (.ok r) → r.referencedKeys.contains next = true → Reached db keys next

theorem reached_iff {key : Key} : db.Reached keys key ↔ db.readable.Reached true keys key := by
  constructor
  · intro h
    induction h with
    | given hkey => exact .given hkey
    | referred _ hread hrefers ih => exact .referred rfl ih (find?_readable.2 hread) hrefers
  · intro h
    induction h with
    | given hkey => exact .given hkey
    | referred _ _ hfind hrefers ih => exact .referred ih (find?_readable.1 hfind) hrefers

theorem reach_nil (db : Database) (limit fuel : Nat) (visited : SortedSet Key) :
    reach db limit fuel visited [] = .ok visited := by
  cases fuel <;> rfl

section Generation

variable {visited : SortedSet Key} {frontier : List Key} {records : List Record}

/-- The keys visited whose records were read after one more generation are those visited before. -/
theorem read_iff_visited (key : Key) :
    (visitReferences visited records).1.contains key = true ∧
      key ∉ (visitReferences visited records).2 ↔ visited.contains key = true := by
  obtain ⟨hseen, hfresh⟩ := mem_visitReferences visited records key
  rw [hseen, hfresh]
  by_cases hkey : visited.contains key = true
  · simp [hkey]
  · simp [hkey]

/-- One generation of the search. -/
theorem explored_visitReferences (hkeyed : Batch.Keyed c)
    (hfrontier : ∀ key ∈ frontier, visited.contains key = true)
    (hexplored : c.Explored true keys
      (fun key => visited.contains key = true ∧ key ∉ frontier) (· ∈ frontier))
    (hrecords : ∀ r, r ∈ records ↔ r.key ∈ frontier ∧ c.find? r.key = some r) :
    c.Explored true keys
      (fun key => (visitReferences visited records).1.contains key = true ∧
        key ∉ (visitReferences visited records).2)
      (· ∈ (visitReferences visited records).2) := by
  refine hexplored.advance ?_ ?_ ?_ ?_
  · rintro key (⟨hkey, -⟩ | hkey)
    · exact .inl ((read_iff_visited key).2 hkey)
    · exact .inl ((read_iff_visited key).2 (hfrontier key hkey))
  · intro key hkey
    by_cases hlast : key ∈ frontier
    · exact .inr hlast
    · exact .inl ⟨(read_iff_visited key).1 hkey, hlast⟩
  · intro key hkey
    obtain ⟨-, r, hr, hrefers⟩ := (mem_visitReferences visited records key).2.1 hkey
    obtain ⟨hlast, hfind⟩ := (hrecords r).1 hr
    exact .inr (.inr ⟨rfl, r.key, r, hlast, hfind, hrefers⟩)
  · intro _ key r next hkey hnew hfind hrefers
    have hvisited := (read_iff_visited key).1 hkey
    have hlast : key ∈ frontier := by
      by_contra hlast
      exact hnew ⟨hvisited, hlast⟩
    have hr : r ∈ records := by
      rw [hrecords, hkeyed key r hfind]
      exact ⟨hlast, hfind⟩
    have hseen := (mem_visitReferences visited records next).1.2 (.inr ⟨r, hr, hrefers⟩)
    by_cases hfresh : next ∈ (visitReferences visited records).2
    · exact .inr hfresh
    · exact .inl ⟨hseen, hfresh⟩

/-- A generation with new references has read a record. -/
theorem unread_visitReferences (hfrontier : ∀ key ∈ frontier, visited.contains key = true)
    (hrecords : ∀ r, r ∈ records ↔ r.key ∈ frontier ∧ c.find? r.key = some r)
    (hnext : (visitReferences visited records).2 ≠ []) :
    (unread c (visitReferences visited records).1 (visitReferences visited records).2).card <
      (unread c visited frontier).card := by
  obtain ⟨key, hkey⟩ := List.exists_mem_of_ne_nil _ hnext
  obtain ⟨-, r, hr, -⟩ := (mem_visitReferences visited records key).2.1 hkey
  obtain ⟨hlast, hfind⟩ := (hrecords r).1 hr
  have hnot (k : Key) : (¬(visitReferences visited records).1.contains k = true ∨
      k ∈ (visitReferences visited records).2) ↔ ¬visited.contains k = true := by
    have hread : (visitReferences visited records).1.contains k = true ∧
        k ∉ (visitReferences visited records).2 ↔ visited.contains k = true := read_iff_visited k
    rw [← hread, not_and_or, not_not]
  refine Finset.card_lt_card (Finset.ssubset_iff_subset_ne.2 ⟨fun k hk => ?_, fun hsame => ?_⟩)
  · simp only [unread, Finset.mem_filter, hnot] at hk ⊢
    exact ⟨hk.1, .inl hk.2⟩
  · have hmem : r.key ∈ unread c visited frontier := by
      simp only [unread, Finset.mem_filter, List.mem_toFinset]
      exact ⟨SortedMap.mem_keys.2 ⟨r, hfind⟩, .inr hlast⟩
    rw [← hsame] at hmem
    simp only [unread, Finset.mem_filter, hnot] at hmem
    exact hmem.2 (hfrontier r.key hlast)

end Generation

/-- When no frontier is left, all keys reached have been visited, and their rows read. -/
theorem visited_detects {visited : SortedSet Key}
    (hexplored : db.readable.Explored true keys
      (fun key => visited.contains key = true ∧ key ∉ ([] : List Key)) (· ∈ ([] : List Key)))
    (hgood : ∀ key, visited.contains key = true → key ∉ ([] : List Key) → ¬db.Unreadable key) :
    Detects (¬db.Serves limit) (∃ key, db.Reached keys key ∧ db.Unreadable key)
      (fun result => ∀ key, result.contains key = true ↔ db.Reached keys key) (.ok visited) := by
  have hreached (key : Key) : visited.contains key = true ↔ db.Reached keys key := by
    rw [reached_iff, hexplored.reached_iff fun _ => List.not_mem_nil]
    exact (and_iff_left List.not_mem_nil).symm
  refine ⟨?_, hreached⟩
  rintro ⟨key, hkey, hbad⟩
  exact hgood key ((hreached key).2 hkey) List.not_mem_nil hbad

/-- By induction on the fuel, which is more than the number of keys not read yet. The keys visited
before the frontier were read, and so none of them is unreadable. -/
theorem reach_detects {fuel : Nat} {visited : SortedSet Key} {frontier : List Key}
    (hfrontier : ∀ key ∈ frontier, visited.contains key = true)
    (hexplored : db.readable.Explored true keys
      (fun key => visited.contains key = true ∧ key ∉ frontier) (· ∈ frontier))
    (hgood : ∀ key, visited.contains key = true → key ∉ frontier → ¬db.Unreadable key)
    (hfuel : (unread db.readable visited frontier).card < fuel) :
    Detects (¬db.Serves limit) (∃ key, db.Reached keys key ∧ db.Unreadable key)
      (fun result => ∀ key, result.contains key = true ↔ db.Reached keys key)
      (db.reach limit fuel visited frontier) := by
  induction fuel generalizing visited frontier with
  | zero => exact absurd hfuel (Nat.not_lt_zero _)
  | succ fuel ih =>
    by_cases hempty : frontier = []
    · subst hempty
      rw [reach_nil]
      exact visited_detects hexplored hgood
    have hstep : db.reach limit (fuel + 1) visited frontier =
        db.select limit frontier >>= fun records =>
          db.reach limit fuel (visitReferences visited records).1
            (visitReferences visited records).2 := by
      rw [reach, List.isEmpty_eq_false_iff.2 hempty]
      rfl
    rw [hstep]
    refine (select_detects db limit frontier).bind ?_ fun records hread hfound => ?_
    · -- a row of the frontier that cannot be read is one of a key reached
      rintro ⟨key, hkey, hbad⟩
      exact ⟨key, reached_iff.2 (hexplored.reached key (.inr hkey)), hbad⟩
    have hrecords : ∀ r, r ∈ records ↔ r.key ∈ frontier ∧ db.readable.find? r.key = some r :=
      fun r => by rw [hfound r, find?_readable]
    have hgeneration := explored_visitReferences (keyed_readable db) hfrontier hexplored hrecords
    -- the frontier was read without a failure, so its keys join those known to be readable
    have hgood' (key : Key) (hkey : (visitReferences visited records).1.contains key = true)
        (hold : key ∉ (visitReferences visited records).2) : ¬db.Unreadable key := by
      have hvisited : visited.contains key = true := (read_iff_visited key).1 ⟨hkey, hold⟩
      by_cases hlast : key ∈ frontier
      · exact fun hbad => hread ⟨key, hlast, hbad⟩
      · exact hgood key hvisited hlast
    by_cases hnext : (visitReferences visited records).2 = []
    · rw [hnext] at hgeneration hgood' ⊢
      rw [reach_nil]
      exact visited_detects hgeneration hgood'
    · -- each further generation reads a row that was not read before
      have hfewer := unread_visitReferences hfrontier hrecords hnext
      refine ih (fun key hkey => ?_) hgeneration hgood' (by omega)
      obtain ⟨hseen, hfresh⟩ := mem_visitReferences visited records key
      exact hseen.2 (.inr (hfresh.1 hkey).2)

/-- **Following references** fails for a row exactly when that of a key reached cannot be read. -/
theorem reachable_detects (db : Database) (limit : Nat) (keys : List Key) :
    Detects (¬db.Serves limit) (∃ key, db.Reached keys key ∧ db.Unreadable key)
      (fun found => ∀ key, key ∈ found ↔ db.Reached keys key) (db.reachable limit keys) := by
  have hgiven (key : Key) : (SortedSet.ofList keys).contains key = true ↔ key ∈ keys := by
    rw [SortedSet.contains_ofList, decide_eq_true_iff]
  have hexplored : db.readable.Explored true keys
      (fun key => (SortedSet.ofList keys).contains key = true ∧
        key ∉ (SortedSet.ofList keys).toList) (· ∈ (SortedSet.ofList keys).toList) := by
    refine Contents.explored_given (fun key hkey => hkey.2 (SortedSet.mem_toList.2 hkey.1)) ?_
    exact fun key => SortedSet.mem_toList.trans (hgiven key)
  have hfew : (unread db.readable (SortedSet.ofList keys) (SortedSet.ofList keys).toList).card ≤
      db.rowKeys.length := by
    calc (unread db.readable (SortedSet.ofList keys) (SortedSet.ofList keys).toList).card
        ≤ db.readable.keys.toFinset.card := Finset.card_le_card (Finset.filter_subset _ _)
      _ ≤ db.readable.keys.length := List.toFinset_card_le _
      _ ≤ db.rowKeys.length := by
        rw [SortedMap.keys, List.length_map]
        exact SortedMap.size_le fun key r hr => mem_rowKeys (find?_readable.1 hr)
  have hstart : db.reachable limit keys =
      db.reach limit (db.rowKeys.length + 2) (SortedSet.ofList keys)
        (SortedSet.ofList keys).toList >>= fun visited => .ok visited.toList := by
    obtain ⟨_ | table⟩ := db
    · rfl
    · rw [rowKeys, Option.map_some, Option.getD_some, Table.keys, List.length_map]
      rfl
  rw [hstart]
  refine (reach_detects (fun key hkey => SortedSet.mem_toList.1 hkey) hexplored
    (fun key hkey hold => absurd (SortedSet.mem_toList.2 hkey) hold) (by omega)).bind id
    fun visited hgood hvisited => ⟨hgood, fun key => ?_⟩
  exact SortedSet.mem_toList.trans (hvisited key)

/-- The keys found where each row of a key reached can be read. -/
theorem reachable_ok (hserves : db.Serves limit)
    (hread : ∀ key, db.Reached keys key → ¬db.Unreadable key) :
    ∃ found, db.reachable limit keys = .ok found ∧ ∀ key, key ∈ found ↔ db.Reached keys key :=
  (reachable_detects db limit keys).eq_ok (not_not_intro hserves)
    fun ⟨key, hkey, hbad⟩ => hread key hkey hbad

/-- The keys found in a table whose rows can all be read. -/
theorem reachable_eq (h : table.Holds c) (hlimit : limit ≤ maxParameters) (keys : List Key) :
    ∃ found, reachable ⟨some table⟩ limit keys = .ok found ∧
      ∀ key, key ∈ found ↔ c.Reached true keys key := by
  obtain ⟨found, hresult, hfound⟩ := reachable_ok ⟨rfl, hlimit⟩
    fun key (_ : Reached ⟨some table⟩ keys key) => h.not_unreadable key
  refine ⟨found, hresult, fun key => (hfound key).trans ?_⟩
  rw [reached_iff, h.readable_eq]

end Database
end RecordCache
