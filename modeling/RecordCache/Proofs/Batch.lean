import Mathlib.Data.List.Find
import RecordCache.Batch
import RecordCache.Proofs.SortedMap

/-!
# Batches taken apart and put together

* `Batch.flatten_chunks`: the stretches of a list make up the list, and
  `length_le_size_of_mem_chunks` bounds each;
* `Batch.mem_distinct`: distinct keys are the same keys;
* `Batch.find?_byKey`: the record found under a key is the last one listed with it;
* `Batch.inOrder_eq`: records taken in order are those of the keys, in the order in which these are
  listed first;
* `Batch.foldl_distinct`: records of distinct keys, taken up one after the other;
* `Batch.Keyed` says that every record of a map has the key it is under, and `find?_values` that
  such a map is determined by its records.
-/

namespace RecordCache.Batch

universe u

variable {α : Type u} {size : Nat} {xs chunk : List α}

theorem flatten_chunks (size : Nat) (xs : List α) : (chunks size xs).flatten = xs := by
  induction xs using chunks.induct size with
  | case1 => rw [chunks, List.flatten_nil]
  | case2 x xs ih =>
    rw [chunks, List.flatten_cons, ih, List.cons_append, List.take_append_drop]

theorem mem_of_mem_chunks {x : α} (hchunk : chunk ∈ chunks size xs) (hx : x ∈ chunk) : x ∈ xs := by
  rw [← flatten_chunks size xs]
  exact List.mem_flatten.2 ⟨chunk, hchunk, hx⟩

theorem ne_nil_of_mem_chunks (h : chunk ∈ chunks size xs) : chunk ≠ [] := by
  induction xs using chunks.induct size with
  | case1 => simp [chunks] at h
  | case2 x xs ih =>
    rw [chunks, List.mem_cons] at h
    rcases h with rfl | h
    · exact List.cons_ne_nil _ _
    · exact ih h

theorem length_le_size_of_mem_chunks (h : chunk ∈ chunks size xs) : chunk.length ≤ max 1 size := by
  induction xs using chunks.induct size with
  | case1 => simp [chunks] at h
  | case2 x xs ih =>
    rw [chunks, List.mem_cons] at h
    rcases h with rfl | h
    · rw [List.length_cons, List.length_take]
      omega
    · exact ih h

theorem length_le_length_of_mem_chunks (h : chunk ∈ chunks size xs) : chunk.length ≤ xs.length := by
  rw [← flatten_chunks size xs]
  exact (List.sublist_flatten_of_mem h).length_le

theorem mem_distinct {keys : List Key} {key : Key} : key ∈ distinct keys ↔ key ∈ keys := by
  rw [distinct, SortedSet.mem_toList, SortedSet.contains_ofList, decide_eq_true_iff]

theorem nodup_distinct (keys : List Key) : (distinct keys).Nodup := SortedMap.nodup_keys _

theorem length_distinct_le_of_subset {keys named : List Key} (h : keys ⊆ named) :
    (distinct keys).length ≤ named.length :=
  ((nodup_distinct keys).subperm fun _ hkey => h (mem_distinct.1 hkey)).length_le

theorem length_distinct_le (keys : List Key) : (distinct keys).length ≤ keys.length :=
  length_distinct_le_of_subset (List.Subset.refl keys)

/-- The record found under a key is the last one listed with it. -/
theorem find?_byKey (records : List Record) (key : Key) :
    (byKey records).find? key = records.reverse.find? fun r => r.key = key := by
  rw [byKey, SortedMap.find?_ofList, ← List.map_reverse, List.find?_map, Option.map_map]
  exact Option.map_id'

/-- If no two records have one key, a record is found under its key exactly if it is listed. -/
theorem find?_byKey_iff {records : List Record}
    (hunique : ∀ r ∈ records, ∀ r' ∈ records, r.key = r'.key → r = r') {key : Key} {r : Record} :
    (byKey records).find? key = some r ↔ r ∈ records ∧ r.key = key := by
  rw [find?_byKey]
  constructor
  · intro hfind
    have hmem := List.mem_reverse.1 (List.mem_of_find?_eq_some hfind)
    exact ⟨hmem, by simpa using List.find?_some hfind⟩
  · rintro ⟨hr, hkey⟩
    cases hfind : records.reverse.find? fun r => r.key = key with
    | none =>
      exact absurd (decide_eq_true hkey) (List.find?_eq_none.1 hfind r (List.mem_reverse.2 hr))
    | some found =>
      have hfound := List.mem_reverse.1 (List.mem_of_find?_eq_some hfind)
      have hsame : found.key = key := by simpa using List.find?_some hfind
      rw [hunique found hfound r hr (hsame.trans hkey.symm)]

/-- What is found under some keys, put together again. -/
theorem find?_byKey_filterMap {f : Key → Option Record}
    (hkeyed : ∀ key r, f key = some r → r.key = key) (keys : List Key) (key : Key) :
    (byKey (keys.filterMap f)).find? key = if key ∈ keys then f key else none := by
  rw [find?_byKey]
  cases hfound : (keys.filterMap f).reverse.find? fun r => r.key = key with
  | some r =>
    have hmem := List.mem_reverse.1 (List.mem_of_find?_eq_some hfound)
    obtain ⟨k, hk, hr⟩ := List.mem_filterMap.1 hmem
    have hkey : r.key = key := by simpa using List.find?_some hfound
    have hsame : k = key := (hkeyed k r hr).symm.trans hkey
    rw [← hsame, if_pos hk, hr]
  | none =>
    split
    · rename_i hk
      cases hr : f key with
      | none => rfl
      | some r =>
        have hmem : r ∈ (keys.filterMap f).reverse :=
          List.mem_reverse.2 (List.mem_filterMap.2 ⟨key, hk, hr⟩)
        exact absurd (decide_eq_true (hkeyed key r hr)) (List.find?_eq_none.1 hfound r hmem)
    · rfl

/-- Records put into a map under their keys, one after the other. -/
theorem find?_foldl_put (records : List Record) (c : SortedMap Key Record) (key : Key) :
    (records.foldl (fun c r => c.insert r.key r) c).find? key =
      ((byKey records).find? key).or (c.find? key) := by
  have hpairs := SortedMap.find?_foldl_insert c (records.map fun r => (r.key, r)) key
  rw [List.foldl_map, ← List.map_reverse, List.find?_map, Option.map_map] at hpairs
  rw [find?_byKey]
  exact hpairs.trans (congrArg (Option.or · _) Option.map_id')

/-- A key without a record may as well not be listed. -/
theorem inOrder_erase (found : SortedMap Key Record) (key : Key) (keys : List Key) :
    inOrder (found.erase key) keys = inOrder found (keys.filter fun k => !k == key) := by
  induction keys generalizing found with
  | nil => rfl
  | cons k keys ih =>
    by_cases hk : k = key
    · have hgone : (found.erase key).find? k = none := by
        rw [SortedMap.find?_erase, if_pos hk]
      rw [inOrder, hgone, ih, List.filter_cons_of_neg (by simp [hk])]
    · have hsame : (found.erase key).find? k = found.find? k := by
        rw [SortedMap.find?_erase, if_neg hk]
      have hcomm : (found.erase key).erase k = (found.erase k).erase key := by
        ext other
        simp only [SortedMap.find?_erase]
        split <;> split <;> rfl
      rw [inOrder, hsame, List.filter_cons_of_pos (by simp [hk]), inOrder, hcomm, ih, ih]

/-- The records taken in order are those of the keys, each key where it is listed first. -/
theorem inOrder_eq (found : SortedMap Key Record) : (keys : List Key) →
    inOrder found keys = keys.eraseDups.filterMap found.find?
  | [] => by rw [inOrder, List.eraseDups_nil, List.filterMap_nil]
  | key :: keys => by
    have hrest : inOrder (found.erase key) keys =
        (keys.filter fun k => !k == key).eraseDups.filterMap found.find? := by
      rw [inOrder_erase, inOrder_eq]
    rw [inOrder, List.eraseDups_cons, List.filterMap_cons, ← hrest]
    cases hkey : found.find? key with
    | some r => rfl
    | none => rw [SortedMap.erase_eq_self hkey]
termination_by keys => keys.length
decreasing_by exact Nat.lt_succ_of_le (List.length_filter_le _ _)

/-- They depend on what is found under the keys. -/
theorem inOrder_congr {a b : SortedMap Key Record} {keys : List Key}
    (h : ∀ key ∈ keys, a.find? key = b.find? key) : inOrder a keys = inOrder b keys := by
  rw [inOrder_eq, inOrder_eq]
  exact List.filterMap_congr fun key hkey => h key (List.mem_eraseDups.1 hkey)

/-- Every record is under its own key. -/
def Keyed (records : SortedMap Key Record) : Prop :=
  ∀ key r, records.find? key = some r → r.key = key

theorem keyed_empty : Keyed ∅ := fun _ _ h => absurd h.symm (Option.some_ne_none _)

theorem Keyed.insert {records : SortedMap Key Record} (h : Keyed records) (r : Record) :
    Keyed (records.insert r.key r) := by
  intro key found hfind
  rw [SortedMap.find?_insert_eq] at hfind
  split at hfind
  · rename_i hkey
    cases hfind
    exact hkey.symm
  · exact h key found hfind

/-- The records under some of the keys. -/
theorem Keyed.restrict {records named : SortedMap Key Record} (h : Keyed records) {keys : List Key}
    (hnamed : ∀ key, named.find? key = if key ∈ keys then records.find? key else none) :
    Keyed named := by
  intro key r hfind
  rw [hnamed] at hfind
  exact h key r (Option.ite_none_right_eq_some.1 hfind).2

theorem keyed_byKey (records : List Record) : Keyed (byKey records) := by
  intro key r hfind
  rw [find?_byKey] at hfind
  simpa using List.find?_some hfind

/-- What is found under distinct keys, put together again. -/
theorem Keyed.find?_byKey_distinct {records : SortedMap Key Record} (h : Keyed records)
    (keys : List Key) (key : Key) :
    (byKey ((distinct keys).filterMap records.find?)).find? key =
      if key ∈ keys then records.find? key else none := by
  rw [find?_byKey_filterMap h]
  exact if_congr mem_distinct rfl rfl

/-- A record is found by its key among the values. -/
theorem Keyed.find?_values {records : SortedMap Key Record} (h : Keyed records) (key : Key) :
    (records.values.reverse.find? fun r => r.key = key) = records.find? key := by
  have hkeys : ∀ entry ∈ records.entries.reverse,
      decide (entry.2.key = key) = decide (entry.1 = key) := by
    intro entry hentry
    rw [h entry.1 entry.2 (SortedMap.find?_eq_some_iff_mem.2 (List.mem_reverse.1 hentry))]
  rw [SortedMap.values, ← List.map_reverse, List.find?_map]
  exact (congrArg (Option.map Prod.snd) (List.find?_congr hkeys)).trans
    (Entries.find?_reverse records.ascending key)

/-- The keys of the records. -/
theorem Keyed.mem_map_key {records : SortedMap Key Record} (h : Keyed records) {key : Key} :
    key ∈ records.values.map Record.key ↔ records.contains key = true := by
  rw [List.mem_map, SortedMap.contains_iff]
  constructor
  · rintro ⟨r, hr, rfl⟩
    obtain ⟨key, hfind⟩ := SortedMap.mem_values.1 hr
    rw [h key r hfind]
    exact ⟨r, hfind⟩
  · rintro ⟨r, hfind⟩
    exact ⟨r, SortedMap.mem_values.2 ⟨key, hfind⟩, h key r hfind⟩

/-- Records of distinct keys are taken up one after the other, each without touching other keys:
what a step leaves under its own key is there in the end. -/
theorem foldl_distinct {σ : Type} (f : σ → Record → σ) (look : σ → Key → Option Record)
    (Inv : σ → Prop) (P : Option Record → Record → Prop) {records : List Record}
    (hinv : ∀ s r, Inv s → Inv (f s r))
    (hself : ∀ s, ∀ r ∈ records, Inv s → P (look (f s r) r.key) r)
    (hother : ∀ s r key, Inv s → key ≠ r.key → look (f s r) key = look s key)
    (hdistinct : (records.map Record.key).Nodup) {s : σ} (hs : Inv s) :
    ∀ r ∈ records, P (look (records.foldl f s) r.key) r := by
  have hlater (records : List Record) (s : σ) (hs : Inv s) (key : Key)
      (hkey : key ∉ records.map Record.key) : look (records.foldl f s) key = look s key := by
    induction records generalizing s with
    | nil => rfl
    | cons first records ih =>
      obtain ⟨hfirst, hrest⟩ := not_or.1 (mt List.mem_cons.2 hkey)
      rw [List.foldl_cons, ih _ (hinv s first hs) hrest, hother s first key hs hfirst]
  induction records generalizing s with
  | nil => exact fun r hr => absurd hr List.not_mem_nil
  | cons first records ih =>
    obtain ⟨hfirst, hrest⟩ := List.nodup_cons.1 hdistinct
    have hnext := hinv s first hs
    rw [List.foldl_cons]
    refine List.forall_mem_cons.2 ⟨?_, ih ?_ hrest hnext⟩
    · rw [hlater records _ hnext first.key hfirst]
      exact hself s first List.mem_cons_self hs
    · exact fun s r hr => hself s r (List.mem_cons_of_mem _ hr)

end RecordCache.Batch
