import RecordCache.Proofs.Chain.Trace
import RecordCache.Proofs.Freshness
import RecordCache.Proofs.Store.Written

/-!
# The history of a table

What a table is to be trimmed by, the date of a row and its place among the others, comes from the
history of its key. The date is that of the last write: the header of the call gives it in seconds,
and the clock otherwise. The place is that of the first write since the key was last removed,
however often it has been written again.

* `History` lists what happened to rows, with `History.lastWrite` and `History.firstWrite`, and
  `History.Older` compares two keys by them;
* `History.dateOf` is the date of a write, in exact integers, and `WriteDates.toInt_updated` says
  that rows have it;
* `Table.Follows` says that a table has the dates and the order of a history; `Follows.write` and
  `Follows.thin` are the two ways to go on;
* `Store.events` is what a call does to rows, and `Store.recorded` a store after a run, with its
  history;
* `Store.recorded_follows`: the table of a store in use follows its history.
-/

namespace RecordCache

/-- What may happen to the row of a key. Dates are milliseconds since the epoch. -/
inductive RowEvent
  | write (key : Key) (date : Int)
  | remove (key : Key)
  deriving DecidableEq

/-- What happened to rows, the latest event first. -/
abbrev History := List RowEvent

namespace History

/-- The date of a write: the header says when the data were received, in seconds, and without it the
clock counts. Beyond 64 bits it is the last one that fits. -/
def dateOf (now : Instant) (headers : Headers) : Int :=
  let date := match headers.int64? Headers.receivedDate with
    | some seconds => seconds.toInt * 1000
    | none => now.nanoseconds / 1000000
  max (-2 ^ 63) (min date (2 ^ 63 - 1))

/-- The date of the last write, if the key was not removed since. -/
def lastWrite (key : Key) : History → Option Int
  | [] => none
  | .write k date :: earlier => if k = key then some date else lastWrite key earlier
  | .remove k :: earlier => if k = key then none else lastWrite key earlier

/-- How many events there were before the first write since the key was last removed, if it was
written since. -/
def firstWrite (key : Key) : History → Option Nat
  | [] => none
  | .write k _ :: earlier =>
    if k = key then some ((firstWrite key earlier).getD earlier.length) else firstWrite key earlier
  | .remove k :: earlier => if k = key then none else firstWrite key earlier

/-- The first key was written first, of two that were not removed since. -/
def Before (history : History) (a b : Key) : Prop :=
  ∃ m n, history.firstWrite a = some m ∧ history.firstWrite b = some n ∧ m < n

/-- The last write of the first key is the older one; of two of one date, it was written first. -/
def Older (history : History) (a b : Key) : Prop :=
  ∃ m n, history.lastWrite a = some m ∧ history.lastWrite b = some n ∧
    (m < n ∨ m = n ∧ history.Before a b)

variable {history : History} {key : Key}

theorem firstWrite_lt {n : Nat} (h : history.firstWrite key = some n) : n < history.length := by
  induction history generalizing n with
  | nil => cases h
  | cons event earlier ih =>
    cases event with
    | write k date =>
      rw [firstWrite] at h
      split at h
      · cases hfirst : firstWrite key earlier with
        | none => simp_all
        | some first =>
          have hlt := ih hfirst
          simp [hfirst] at h
          simp only [List.length_cons]
          omega
      · exact Nat.lt_succ_of_lt (ih h)
    | remove k =>
      rw [firstWrite] at h
      split at h
      · cases h
      · exact Nat.lt_succ_of_lt (ih h)

/-- A write of a key that is there already does not change its place. -/
theorem firstWrite_again (date : Int) (h : (history.firstWrite key).isSome = true) (k : Key) :
    firstWrite k (.write key date :: history) = history.firstWrite k := by
  obtain ⟨n, hn⟩ := Option.isSome_iff_exists.1 h
  rw [firstWrite]
  split
  · rename_i hkey
    rw [← hkey, hn, Option.getD_some]
  · rfl

/-- A write of a key that is not there puts it behind all others. -/
theorem firstWrite_new (date : Int) (h : history.firstWrite key = none) (k : Key) :
    firstWrite k (.write key date :: history) =
      if key = k then some history.length else history.firstWrite k := by
  rw [firstWrite]
  split
  · rename_i hkey
    rw [← hkey, h, Option.getD_none]
  · rfl

theorem lastWrite_removed (keys : List Key) (history : History) (key : Key) :
    lastWrite key (keys.map .remove ++ history) =
      if key ∈ keys then none else history.lastWrite key := by
  induction keys with
  | nil => simp
  | cons k keys ih =>
    rw [List.map_cons, List.cons_append, lastWrite, ih]
    by_cases hk : k = key
    · simp [hk]
    · simp [hk, Ne.symm hk]

theorem firstWrite_removed (keys : List Key) (history : History) (key : Key) :
    firstWrite key (keys.map .remove ++ history) =
      if key ∈ keys then none else history.firstWrite key := by
  induction keys with
  | nil => simp
  | cons k keys ih =>
    rw [List.map_cons, List.cons_append, firstWrite, ih]
    by_cases hk : k = key
    · simp [hk]
    · simp [hk, Ne.symm hk]

end History

/-- Rows are dated as the history says. -/
theorem WriteDates.toInt_updated (now : Instant) (headers : Headers) :
    (WriteDates.ofHeaders now headers).updated.toInt = History.dateOf now headers := by
  have hclamp (n : Int) :
      (Int64.ofIntClamp n).toInt = max (-2 ^ 63) (min n (2 ^ 63 - 1)) := by
    rw [toInt_ofIntClamp, Int64.toInt_minValue, Int64.toInt_maxValue, min_comm]
  rw [ofHeaders, History.dateOf]
  cases headers.int64? Headers.receivedDate with
  | some seconds => exact hclamp _
  | none => exact hclamp _

namespace Table

variable {table written : Table} {history : History}

/-- The table has a row for each key that was written and not removed since, of the date of the last
write, and the rows are in the order of their first writes. -/
structure Follows (history : History) (table : Table) : Prop where
  dated : ∀ key row, table.find? key = some row →
    history.lastWrite key = some row.updatedDate.toInt
  known : ∀ key, key ∈ table.keys ↔ (history.firstWrite key).isSome = true
  ordered : table.keys.Pairwise history.Before

theorem follows_nil (hasDates : Bool) : Follows [] ⟨[], hasDates⟩ := by
  constructor
  · intro key row hfind
    cases hfind
  · simp [keys, History.firstWrite]
  · exact .nil

theorem Follows.nodup (h : table.Follows history) : table.keys.Nodup :=
  h.ordered.imp fun ⟨m, n, ha, hb, hlt⟩ => by
    rintro rfl
    rw [ha] at hb
    cases hb
    exact Nat.lt_irrefl _ hlt

theorem Follows.dated_write (h : table.Follows history) {mode : WriteMode} {row : Row}
    (hupsert : upsert mode table row = .ok written) {key : Key} {found : Row}
    (hfind : written.find? key = some found) :
    History.lastWrite key (.write row.key row.updatedDate.toInt :: history) =
      some found.updatedDate.toInt := by
  obtain ⟨updated, hkey, hdate, hreplaces⟩ := replaces_of_upsert hupsert
  have hlook := (hreplaces.find key).symm.trans hfind
  rw [History.lastWrite, ← hkey, ← hdate]
  by_cases hsame : key = updated.key
  · rw [if_pos hsame] at hlook
    cases hlook
    rw [if_pos hsame.symm]
  · rw [if_neg hsame] at hlook
    rw [if_neg (Ne.symm hsame)]
    exact h.dated key found hlook

/-- A key that is new comes last: every other one was first written earlier. -/
theorem Follows.ordered_append (h : table.Follows history) {key : Key} (hnew : key ∉ table.keys)
    (date : Int) :
    (table.keys ++ [key]).Pairwise (History.Before (.write key date :: history)) := by
  have hnone : history.firstWrite key = none := by
    simpa [h.known] using hnew
  have hplace := History.firstWrite_new date hnone
  have hothers : ∀ other ∈ table.keys,
      History.firstWrite other (.write key date :: history) = history.firstWrite other := by
    intro other hmem
    rw [hplace, if_neg]
    rintro rfl
    exact hnew hmem
  rw [List.pairwise_append]
  refine ⟨?_, List.pairwise_singleton _ _, ?_⟩
  · refine h.ordered.imp_of_mem fun ha hb hbefore => ?_
    simpa only [History.Before, hothers _ ha, hothers _ hb] using hbefore
  · intro a ha b hb
    rw [List.mem_singleton.1 hb]
    obtain ⟨m, hm⟩ := Option.isSome_iff_exists.1 ((h.known a).1 ha)
    exact ⟨m, history.length, (hothers a ha).trans hm, by rw [hplace, if_pos rfl],
      History.firstWrite_lt hm⟩

/-- **A write.** A row that is there is written again in its place, and a new one goes to the
end. -/
theorem Follows.write (h : table.Follows history) {mode : WriteMode} {row : Row}
    (hupsert : upsert mode table row = .ok written) :
    written.Follows (.write row.key row.updatedDate.toInt :: history) := by
  have hkeys := keys_of_upsert hupsert
  by_cases hold : row.key ∈ table.keys
  · -- the row is written in its place, and so is the history's place of its key
    have hplace := History.firstWrite_again row.updatedDate.toInt ((h.known row.key).1 hold)
    rw [if_pos hold] at hkeys
    refine ⟨fun key found => h.dated_write hupsert, fun key => ?_, ?_⟩
    · rw [hkeys, hplace]
      exact h.known key
    · rw [hkeys]
      refine h.ordered.imp fun hbefore => ?_
      simpa only [History.Before, hplace] using hbefore
  · have hnone : history.firstWrite row.key = none := by
      simpa [h.known] using hold
    rw [if_neg hold] at hkeys
    refine ⟨fun key found => h.dated_write hupsert, fun key => ?_,
      hkeys ▸ h.ordered_append hold row.updatedDate.toInt⟩
    rw [hkeys, History.firstWrite_new row.updatedDate.toInt hnone, List.mem_append,
      List.mem_singleton, h.known]
    by_cases hsame : row.key = key
    · simp [hsame]
    · simp [hsame, Ne.symm hsame]

/-- By induction on the rows of a batch. -/
theorem Follows.foldlM (h : table.Follows history) {mode : WriteMode} {rows : List Row}
    {date : Int64} (hdated : ∀ row ∈ rows, row.updatedDate = date)
    (hrows : rows.foldlM (upsert mode) table = .ok written) :
    written.Follows (((rows.map Row.key).map (.write · date.toInt)).reverse ++ history) := by
  induction rows generalizing table history with
  | nil =>
    cases hrows
    exact h
  | cons row rows ih =>
    obtain ⟨hrow, hrest⟩ := List.forall_mem_cons.1 hdated
    rw [List.foldlM_cons] at hrows
    obtain ⟨first, hfirst, hrows⟩ := ok_of_bind hrows
    have hall := ih (h.write hfirst) hrest hrows
    rw [hrow] at hall
    simpa using hall

/-- **Removals.** The rows that are left keep their dates and their order. -/
theorem Follows.thin (h : table.Follows history) (keep : Row → Bool) :
    let left : Table := { table with rows := table.rows.filter keep }
    left.Follows ((table.keys.filter fun key => !left.keys.contains key).map .remove ++
      history) := by
  intro left
  have hsublist : left.keys.Sublist table.keys := List.filter_sublist.map Row.key
  have hgone (key : Key) : key ∈ (table.keys.filter fun key => !left.keys.contains key) ↔
      key ∈ table.keys ∧ key ∉ left.keys := by
    simp
  have hstays : ∀ key ∈ left.keys,
      ¬key ∈ (table.keys.filter fun key => !left.keys.contains key) :=
    fun key hkey hremoved => ((hgone key).1 hremoved).2 hkey
  have hplace : ∀ key ∈ left.keys, History.firstWrite key
      ((table.keys.filter fun key => !left.keys.contains key).map .remove ++ history) =
        history.firstWrite key := by
    intro key hkey
    rw [History.firstWrite_removed, if_neg (hstays key hkey)]
  constructor
  · intro key row hfind
    have hrow : row ∈ left.rows := List.mem_of_find?_eq_some hfind
    have hkey : row.key = key := key_of_find? hfind
    rw [History.lastWrite_removed, if_neg (hstays key (hkey ▸ List.mem_map_of_mem hrow))]
    exact h.dated key row (hkey ▸ find?_of_mem h.nodup (List.mem_filter.1 hrow).1)
  · intro key
    by_cases hleft : key ∈ left.keys
    · rw [hplace key hleft]
      exact iff_of_true hleft ((h.known key).1 (hsublist.subset hleft))
    · refine iff_of_false hleft ?_
      rw [History.firstWrite_removed]
      split
      · simp
      · rename_i hkept
        rw [hgone] at hkept
        rw [← h.known]
        exact fun hkey => hkept ⟨hkey, hleft⟩
  · refine (h.ordered.sublist hsublist).imp_of_mem fun ha hb hbefore => ?_
    simpa only [History.Before, hplace _ ha, hplace _ hb] using hbefore

end Table

namespace Store

/-- The store that a call leaves behind. -/
def call (s : Store) (now : Instant) (command : Command) : Store :=
  ((Chain.store s).run now command).state.store?.getD s

/-- A removal by a text that is no pattern does nothing. -/
theorem call_removeMatching (s : Store) (now : Instant) (source : String) :
    ((Chain.store s).run now (.removeMatching source)).state =
        .store (s.call now (.removeMatching source)) ∧
      s.Thinned (s.call now (.removeMatching source)) := by
  have hrun : ((Chain.store s).run now (.removeMatching source)).state =
      ((Chain.store s).removeMatching now source).state := rfl
  rw [call, hrun, Chain.removeMatching]
  cases Pattern.parse source with
  | error error => exact ⟨rfl, .refl s⟩
  | ok pattern => exact ⟨rfl, s.thinned_removeMatching pattern⟩

theorem run_store (s : Store) (now : Instant) (command : Command) :
    ((Chain.store s).run now command).state = .store (s.call now command) := by
  cases command with
  | removeMatching source => exact (s.call_removeMatching now source).1
  | _ => rfl

/-- What a call does to rows, the latest event first: a merge writes rows, and any other call may
only take rows away. -/
def events (s : Store) (now : Instant) : Command → History
  | .merge records headers merger =>
    ((s.written now records headers merger).map (.write · (History.dateOf now headers))).reverse
  | command =>
    (s.database.rowKeys.filter fun key =>
      !(s.call now command).database.rowKeys.contains key).map .remove

/-- A new store after a run, with its history. -/
def recorded (config : StoreConfig) (commands : List (Instant × Command)) : Store × History :=
  commands.foldl (fun recorded timed =>
    (recorded.1.call timed.1 timed.2, recorded.1.events timed.1 timed.2 ++ recorded.2))
    (new config, [])

/-- The store has a table that follows the history. -/
def Follows (history : History) (s : Store) : Prop :=
  ∃ table, s.database = ⟨some table⟩ ∧ table.Follows history

variable {s s' : Store} {history : History}

theorem Follows.writes (h : s.Follows history) {date : Int64} {keys : List Key}
    (hwrites : s.Writes date keys s') :
    s'.Follows ((keys.map (.write · date.toInt)).reverse ++ history) := by
  obtain ⟨table, hdatabase, hfollows⟩ := h
  cases hwrites with
  | nothing => exact ⟨table, hdatabase, hfollows⟩
  | rows database dated upserted =>
    rw [hdatabase] at database
    cases database
    exact ⟨_, rfl, hfollows.foldlM dated upserted⟩

theorem Follows.thinned (h : s.Follows history) (hthinned : s.Thinned s') :
    s'.Follows ((s.database.rowKeys.filter fun key =>
      !s'.database.rowKeys.contains key).map .remove ++ history) := by
  obtain ⟨keep, rfl⟩ := hthinned
  obtain ⟨config, db⟩ := s
  obtain ⟨table, rfl, hfollows⟩ := h
  exact ⟨_, rfl, hfollows.thin keep⟩

/-- **One call.** -/
theorem Follows.call (h : s.Follows history) (now : Instant) (command : Command) :
    (s.call now command).Follows (s.events now command ++ history) := by
  cases command with
  | load key headers => exact h.thinned (s.thinned_load [key] headers)
  | loadAll keys headers => exact h.thinned (s.thinned_load keys headers)
  | merge records headers merger =>
    have hwrites := h.writes (s.merge_rows now records headers merger)
    rw [WriteDates.toInt_updated] at hwrites
    exact hwrites
  | remove key cascade => exact h.thinned (s.thinned_removeKeys [key] cascade)
  | removeAll keys cascade => exact h.thinned (s.thinned_removeKeys keys cascade)
  | removeMatching source => exact h.thinned (s.call_removeMatching now source).2
  | removeTypes types => exact h.thinned (s.thinned_removeTypes types)
  | clear => exact h.thinned s.thinned_clear
  | dump => exact h.thinned s.thinned_dump
  | trim maxSize factor sizes => exact h.thinned (s.thinned_trim maxSize factor sizes)
  | name => exact h.thinned (.refl s)

/-- **A run.** The table of a store in use follows its history. -/
theorem recorded_follows (config : StoreConfig) (commands : List (Instant × Command)) :
    (recorded config commands).1.Follows (recorded config commands).2 := by
  refine List.foldlRecOn (motive := fun recorded : Store × History =>
    recorded.1.Follows recorded.2) commands _ ?_ ?_
  · exact ⟨_, rfl, Table.follows_nil _⟩
  · exact fun recorded h timed _ => h.call timed.1 timed.2

theorem after_store (config : StoreConfig) (commands : List (Instant × Command)) :
    (Chain.store (new config)).after commands = .store (recorded config commands).1 := by
  have hrun (s : Store) (history : History) : (Chain.store s).after commands =
      .store (commands.foldl (fun recorded timed => (recorded.1.call timed.1 timed.2,
        recorded.1.events timed.1 timed.2 ++ recorded.2)) (s, history)).1 := by
    induction commands generalizing s history with
    | nil => rfl
    | cons timed commands ih =>
      rw [Chain.after, List.foldl_cons, run_store]
      exact ih _ _
  exact hrun _ _

end Store
end RecordCache
