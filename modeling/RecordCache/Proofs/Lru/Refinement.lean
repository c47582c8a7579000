import Mathlib.Data.List.Nodup
import RecordCache.Proofs.Lru.Queue

/-!
# A cache is a list

What a cache bounded by weight shows is what the queue shows whose items are its entries, in the
order of its index. An operation that only drops entries filters the items, and one that writes an
entry puts it at the end.

* `Lru.items`, `Lru.toQueue`: the queue that a cache stands for;
* `Lru.items_filter`, `items_attach`: the items after entries are dropped, and after one is put in;
* `Lru.toQueue_evictUntilFits`: the items that are left when there is too little room;
* `Lru.call_refines`: a call does to the queue what the queue's own call does;
* `Lru.trace_refines`: every run shows what the same run of a queue shows.
-/

namespace RecordCache

universe u v

namespace Lru

/-- What a call gives, but for the order of the pairs removed. -/
inductive Answer.Alike {κ : Type u} {α : Type v} : Answer κ α → Answer κ α → Prop
  | value (found : Option α) : Alike (.value found) (.value found)
  | removed {pairs pairs' : List (κ × α)} :
    pairs.Perm pairs' → Alike (.removed pairs) (.removed pairs')
  | done : Alike .done .done

variable {κ : Type u} {α : Type v}

/-- An entry as an item. -/
def Entry.toItem (key : κ) (entry : Entry α) : Queue.Item κ α :=
  ⟨key, entry.value, entry.weight, entry.writtenAt⟩

variable [Ord κ]

/-- The entries in the order of the index. -/
def items (lru : Lru κ α) : List (Queue.Item κ α) :=
  lru.recency.entries.filterMap fun place => (lru.entries.find? place.2).map (Entry.toItem place.2)

/-- The queue that a cache stands for. -/
def toQueue (lru : Lru κ α) : Queue κ α where
  weigh := lru.weigh
  maxWeight := lru.maxWeight
  expireAfter := lru.expireAfter
  items := lru.items
  hits := lru.hits
  misses := lru.misses
  evictions := lru.evictions

theorem isLive_toQueue (lru : Lru κ α) (now : Instant) (key : κ) (entry : Entry α) :
    lru.toQueue.isLive now (entry.toItem key) = !lru.isExpired now entry := by
  rw [Queue.isLive, isExpired, toQueue]
  cases lru.expireAfter with
  | none => rfl
  | some limit =>
    show decide ((now.since entry.writtenAt).nanoseconds < limit.nanoseconds) =
      !decide (limit.nanoseconds ≤ (now.since entry.writtenAt).nanoseconds)
    rw [Bool.eq_iff_iff]
    simp

theorem snapshot_toQueue (lru : Lru κ α) (now : Instant) :
    lru.toQueue.snapshot now = lru.snapshot now := by
  show (lru.items.filter (lru.toQueue.isLive now)).map _ = _
  rw [items, List.filter_filterMap, List.map_filterMap, snapshot, SortedMap.values,
    List.filterMap_map]
  refine List.filterMap_congr fun place _ => ?_
  rw [Function.comp, peek]
  cases lru.entries.find? place.2 with
  | none => rfl
  | some entry =>
    dsimp only
    rw [Option.map_some, Option.filter_some, isLive_toQueue]
    cases lru.isExpired now entry <;> rfl

/-- The trace of a run: the answer to each call, with the state after it. -/
def trace [Std.TransOrd κ] [Std.LawfulEqOrd κ] (lru : Lru κ α) :
    List (Instant × Call κ α) → List (Answer κ α × Lru κ α)
  | [] => []
  | (now, call) :: rest => lru.call now call :: trace (lru.call now call).2 rest

variable {lru lru' : Lru κ α} {key : κ} {entry : Entry α} {now : Instant}

/-! ### The items -/

section Items

variable (h : lru.Indexed)

include h

theorem mem_items {item : Queue.Item κ α} :
    item ∈ lru.items ↔
      ∃ entry, lru.entries.find? item.key = some entry ∧ entry.toItem item.key = item := by
  simp only [items, List.mem_filterMap, Option.map_eq_some_iff]
  constructor
  · rintro ⟨place, -, entry, hentry, rfl⟩
    exact ⟨entry, hentry, rfl⟩
  · rintro ⟨entry, hentry, hitem⟩
    have hlisted := (h.listed entry.tick item.key).2 ⟨entry, hentry, rfl⟩
    exact ⟨(entry.tick, item.key), SortedMap.find?_eq_some_iff_mem.1 hlisted, entry, hentry, hitem⟩

/-- No key is listed twice: it is listed under the tick of its entry. -/
theorem nodup_items : (lru.items.map Queue.Item.key).Nodup := by
  refine List.pairwise_map.2 (List.pairwise_filterMap.2 ?_)
  refine lru.recency.ascending.imp_of_mem fun {a b} ha hb hab item hitem item' hitem' hkey => ?_
  obtain ⟨_, -, rfl⟩ := Option.map_eq_some_iff.1 hitem
  obtain ⟨_, -, rfl⟩ := Option.map_eq_some_iff.1 hitem'
  obtain ⟨entry, hentry, htick⟩ := (h.listed a.1 a.2).1 (SortedMap.find?_eq_some_iff_mem.2 ha)
  obtain ⟨entry', hentry', htick'⟩ := (h.listed b.1 b.2).1 (SortedMap.find?_eq_some_iff_mem.2 hb)
  have hsame : a.2 = b.2 := hkey
  rw [hsame, hentry'] at hentry
  cases hentry
  rw [← htick, ← htick'] at hab
  exact Entries.not_lt_self _ hab

/-- What is left when entries are dropped. -/
theorem items_filter (h' : lru'.Indexed) {keep : Queue.Item κ α → Bool}
    (hfind : ∀ k, lru'.entries.find? k =
      (lru.entries.find? k).filter fun entry => keep (entry.toItem k)) :
    lru'.items = lru.items.filter keep := by
  -- the index lists what is left in the old order
  have hindex : lru'.recency =
      lru.recency.filter fun _ key => (lru'.entries.find? key).isSome := by
    ext tick key
    rw [h'.listed, SortedMap.find?_filter, Option.filter_eq_some_iff, h.listed]
    constructor
    · rintro ⟨entry, hentry, rfl⟩
      have hold := (Option.filter_eq_some_iff.1 ((hfind key).symm.trans hentry)).1
      exact ⟨⟨entry, hold, rfl⟩, Option.isSome_iff_exists.2 ⟨entry, hentry⟩⟩
    · rintro ⟨⟨entry, hold, rfl⟩, hsome⟩
      obtain ⟨kept, hkept⟩ := Option.isSome_iff_exists.1 hsome
      have hfound := (Option.filter_eq_some_iff.1 ((hfind key).symm.trans hkept)).1
      rw [hold] at hfound
      cases hfound
      exact ⟨entry, hkept, rfl⟩
  rw [items, hindex, items, List.filter_filterMap]
  refine List.filterMap_filter.trans (List.filterMap_congr fun place _ => ?_)
  simp only [hfind]
  cases lru.entries.find? place.2 with
  | none => rfl
  | some entry => cases hkeep : keep (entry.toItem place.2) <;> simp [Option.filter_some, hkeep]

theorem item?_toQueue [DecidableEq κ] (key : κ) :
    lru.toQueue.item? key = (lru.entries.find? key).map (Entry.toItem key) := by
  cases hentry : lru.entries.find? key with
  | none =>
    refine List.find?_eq_none.2 fun item hitem => ?_
    obtain ⟨entry, hfind, -⟩ := (mem_items h).1 hitem
    rintro hkey
    rw [of_decide_eq_true hkey, hentry] at hfind
    cases hfind
  | some entry =>
    have hmem : entry.toItem key ∈ lru.items := (mem_items h).2 ⟨entry, hentry, rfl⟩
    cases hfound : lru.toQueue.item? key with
    | none => exact absurd (decide_eq_true rfl) (List.find?_eq_none.1 hfound _ hmem)
    | some item =>
      have hkey : item.key = key := by simpa using List.find?_some hfound
      exact congrArg some (List.inj_on_of_nodup_map (nodup_items h)
        (List.mem_of_find?_eq_some hfound) hmem hkey)

theorem peek_toQueue [DecidableEq κ] (now : Instant) (key : κ) :
    lru.toQueue.peek now key = lru.peek now key := by
  rw [Queue.peek, item?_toQueue h, peek]
  cases lru.entries.find? key with
  | none => rfl
  | some entry =>
    dsimp only
    rw [Option.map_some, Option.filter_some, isLive_toQueue]
    cases lru.isExpired now entry <;> rfl

variable [Std.TransOrd κ] [Std.LawfulEqOrd κ]

/-- The items are the entries in another order. -/
theorem perm_items :
    lru.items.Perm (lru.entries.entries.map fun entry => entry.2.toItem entry.1) := by
  have hentries : (lru.entries.entries.map fun entry => entry.2.toItem entry.1).Nodup := by
    refine List.Nodup.of_map Queue.Item.key ?_
    rw [List.map_map]
    exact lru.entries.nodup_keys
  refine (List.perm_ext_iff_of_nodup (nodup_items h).of_map hentries).2 fun item => ?_
  rw [mem_items h, List.mem_map]
  constructor
  · rintro ⟨entry, hentry, hitem⟩
    exact ⟨(item.key, entry), SortedMap.find?_eq_some_iff_mem.1 hentry, hitem⟩
  · rintro ⟨⟨key, entry⟩, hmem, rfl⟩
    exact ⟨entry, SortedMap.find?_eq_some_iff_mem.2 hmem, rfl⟩

theorem weightOf_items : Queue.weightOf lru.items = lru.totalWeight := by
  rw [h.total, Queue.weightOf, ((perm_items h).map Queue.Item.weight).sum_nat, weightOf,
    SortedMap.values, List.map_map, List.map_map]
  rfl

theorem length_items : lru.items.length = lru.size := by
  rw [(perm_items h).length_eq, List.length_map]
  rfl

variable [DecidableEq κ]

/-- An entry that is put in is the last one. -/
theorem items_attach (hnone : lru.entries.find? key = none) (now : Instant) (value : α) :
    (lru.attach now key value).items = lru.items ++ [⟨key, value, lru.weigh key value, now⟩] := by
  have hindex : (lru.attach now key value).recency.entries =
      lru.recency.entries ++ [(lru.nextTick, key)] := by
    -- the tick drawn for it is larger than all in the index
    refine Entries.insert_of_gt fun place hplace => Nat.compare_eq_gt.2 ?_
    obtain ⟨entry, hentry, htick⟩ :=
      (h.listed place.1 place.2).1 (SortedMap.find?_eq_some_iff_mem.2 hplace)
    exact htick ▸ h.fresh place.2 entry hentry
  have hfind (k : κ) : (lru.attach now key value).entries.find? k =
      if k = key then some ⟨value, lru.weigh key value, lru.nextTick, now⟩
      else lru.entries.find? k :=
    SortedMap.find?_insert_eq _ _ _ _
  rw [items, hindex, List.filterMap_append, items]
  refine congrArg₂ (· ++ ·) (List.filterMap_congr fun place hplace => ?_) ?_
  · obtain ⟨entry, hentry, -⟩ :=
      (h.listed place.1 place.2).1 (SortedMap.find?_eq_some_iff_mem.2 hplace)
    have hkey : place.2 ≠ key := fun hkey => by
      rw [hkey, hnone] at hentry
      cases hentry
    rw [hfind, if_neg hkey]
  · simp [hfind, Entry.toItem]

/-- The first item is that of the entry used longest ago. -/
theorem items_expire (hentry : lru.entries.find? key = some entry) {index : List (Nat × κ)}
    (hindex : lru.recency.entries = (entry.tick, key) :: index)
    (hrest : (lru.expire key entry).recency.entries = index) :
    lru.items = entry.toItem key :: (lru.expire key entry).items := by
  have hexpired : (lru.expire key entry).Indexed := (indexed_detach h hentry).withEvictions _
  rw [items, hindex, List.filterMap_cons_some (by rw [hentry]; rfl), items, hrest]
  refine congrArg _ (List.filterMap_congr fun place hplace => ?_)
  obtain ⟨kept, hkept, -⟩ := (hexpired.listed place.1 place.2).1
    (SortedMap.find?_eq_some_iff_mem.2 (hrest ▸ hplace))
  rw [(SortedMap.find?_erase_eq_some.1 hkept).2, hkept]

omit [DecidableEq κ] in
theorem stats_toQueue : lru.toQueue.stats = lru.stats := by
  simp only [stats, Queue.stats, toQueue, length_items h, weightOf_items h]

omit [DecidableEq κ] in
theorem fits_iff : lru.fits = true ↔ Queue.weightOf lru.items ≤ lru.maxWeight := by
  rw [weightOf_items h, fits, decide_eq_true_iff]

end Items

variable [Std.TransOrd κ] [Std.LawfulEqOrd κ] [DecidableEq κ]

/-- The longest end of the items that fits is left. By induction on the index, from the entry used
longest ago. -/
theorem toQueue_evictUntilFits (index : List (Nat × κ)) (h : lru.Indexed)
    (hindex : lru.recency.entries = index) :
    (lru.evictUntilFits index).toQueue =
      { lru.toQueue with
        items := Queue.fitting lru.maxWeight lru.items
        evictions := lru.evictions +
          (lru.items.length - (Queue.fitting lru.maxWeight lru.items).length) } := by
  induction index generalizing lru with
  | nil =>
    have hitems : lru.items = [] := by rw [items, hindex, List.filterMap_nil]
    rw [evictUntilFits, hitems, Queue.fitting_nil]
    exact Queue.ext rfl rfl rfl hitems rfl rfl rfl
  | cons oldest index ih =>
    obtain ⟨tick, key⟩ := oldest
    obtain ⟨entry, hentry, rfl, hevict, hexpired, hrest⟩ := evict_oldest h hindex
    have hitems := items_expire h hentry hindex hrest
    rw [evictUntilFits]
    by_cases hfits : lru.fits = true
    · have hall : Queue.fitting lru.maxWeight lru.items = lru.items := by
        rw [hitems, Queue.fitting_cons, ← hitems, if_pos ((fits_iff h).1 hfits)]
      rw [if_pos hfits, hall, Nat.sub_self]
      rfl
    · have hcut : Queue.fitting lru.maxWeight lru.items =
          Queue.fitting lru.maxWeight (lru.expire key entry).items := by
        rw [hitems, Queue.fitting_cons, ← hitems, if_neg fun hle => hfits ((fits_iff h).2 hle)]
      have hshorter := (Queue.fitting_suffix lru.maxWeight (lru.expire key entry).items).length_le
      have hlength : lru.items.length = (lru.expire key entry).items.length + 1 := by
        rw [hitems, List.length_cons]
      rw [if_neg hfits, hevict, ih hexpired hrest, hcut]
      refine Queue.ext rfl rfl rfl rfl rfl rfl ?_
      show lru.evictions + 1 + (_ - (Queue.fitting lru.maxWeight _).length) =
        lru.evictions + (_ - (Queue.fitting lru.maxWeight _).length)
      omega

/-! ### Calls -/

/-- The items without that of a key. -/
theorem items_detach (h : lru.Indexed) (hentry : lru.entries.find? key = some entry) :
    (lru.detach key entry).items = lru.toQueue.others key := by
  refine items_filter h (indexed_detach h hentry) fun k => ?_
  show (lru.entries.erase key).find? k = _
  rw [SortedMap.find?_erase]
  by_cases hk : k = key <;> cases lru.entries.find? k <;>
    simp [hk, Entry.toItem, Option.filter_some]

theorem remove_toQueue (h : lru.Indexed) (now : Instant) (key : κ) :
    lru.toQueue.remove now key = (lru.remove now key).map id toQueue := by
  rw [Queue.remove, item?_toQueue h, remove]
  cases hentry : lru.entries.find? key with
  | none => rfl
  | some entry =>
    have hothers := (items_detach h hentry).symm
    simp only [Option.map_some, isLive_toQueue]
    cases lru.isExpired now entry
    · exact Prod.ext rfl (Queue.ext rfl rfl rfl hothers rfl rfl rfl)
    · exact Prod.ext rfl (Queue.ext rfl rfl rfl hothers rfl rfl rfl)

theorem get_toQueue (h : lru.Indexed) (now : Instant) (key : κ) :
    lru.toQueue.get now key = (lru.get now key).map id toQueue := by
  rw [Queue.get, item?_toQueue h, get]
  cases hentry : lru.entries.find? key with
  | none => rfl
  | some entry =>
    have hothers := (items_detach h hentry).symm
    simp only [Option.map_some, isLive_toQueue]
    cases lru.isExpired now entry
    · -- a read puts the entry back with its age
      have hgone : (lru.detach key entry).entries.find? key = none := by
        show (lru.entries.erase key).find? key = none
        rw [SortedMap.find?_erase, if_pos rfl]
      have hback := items_attach (indexed_detach h hentry) hgone entry.writtenAt entry.value
      have hweight : (lru.detach key entry).weigh key entry.value = entry.weight :=
        (h.weighed key entry hentry).symm
      rw [attach_detach h hentry, ← hothers, hweight] at hback
      exact Prod.ext rfl (Queue.ext rfl rfl rfl hback.symm rfl rfl rfl)
    · exact Prod.ext rfl (Queue.ext rfl rfl rfl hothers rfl rfl rfl)

theorem insert_toQueue (h : lru.Valid) (now : Instant) (key : κ) (value : α) :
    lru.toQueue.insert now key value = (lru.insert now key value).map id toQueue := by
  have hremoved := (valid_remove h now key).toIndexed
  have hgone := find?_remove_self lru now key
  have hitems := items_attach hremoved hgone now value
  have hleft := toQueue_evictUntilFits _ (indexed_attach hremoved hgone now value) rfl
  rw [Queue.insert, remove_toQueue h.toIndexed, insert]
  refine Prod.ext rfl (Eq.symm (hleft.trans ?_))
  rw [hitems]
  rfl

omit [Std.TransOrd κ] [Std.LawfulEqOrd κ] [DecidableEq κ] in
/-- Dropping entries changes nothing but the items. -/
theorem toQueue_foldl_detach (lru : Lru κ α) (doomed : List (κ × Entry α)) :
    (doomed.foldl (fun lru pair => lru.detach pair.1 pair.2) lru).toQueue =
      { lru.toQueue with
        items := (doomed.foldl (fun lru pair => lru.detach pair.1 pair.2) lru).items } := by
  induction doomed generalizing lru with
  | nil => rfl
  | cons pair doomed ih => exact ih (lru.detach pair.1 pair.2)

/-- A removal by a condition drops the same pairs from both, in some order. -/
theorem removeWhere_toQueue (h : lru.Valid) (now : Instant) (matching : κ → α → Bool) :
    (lru.removeWhere now matching).1.Perm (lru.toQueue.removeWhere now matching).1 ∧
      (lru.removeWhere now matching).2.toQueue = (lru.toQueue.removeWhere now matching).2 := by
  obtain ⟨hvalid, hfind⟩ := removeWhere_spec h now matching
  let expired := lru.entries.entries.filter fun entry => lru.isExpired now entry.2
  let matched := lru.entries.entries.filter fun entry =>
    !lru.isExpired now entry.2 && matching entry.1 entry.2.value
  have hitems : (lru.removeWhere now matching).2.items = lru.items.filter fun item =>
      lru.toQueue.isLive now item && !matching item.key item.value := by
    refine items_filter h.toIndexed hvalid.toIndexed fun k => ?_
    simp only [hfind, isLive_toQueue]
    rfl
  have hexpired : expired.length = lru.items.countP fun item => !lru.toQueue.isLive now item := by
    rw [(perm_items h.toIndexed).countP_eq, List.countP_map, List.countP_eq_length_filter]
    refine congrArg List.length (List.filter_congr fun entry _ => ?_)
    rw [Function.comp, isLive_toQueue, Bool.not_not]
  have hswept : (lru.sweep now).toQueue = { lru.toQueue with
      items := (lru.sweep now).items, evictions := lru.evictions + expired.length } := by
    rw [sweep, foldl_expire]
    exact congrArg (fun q : Queue κ α => { q with evictions := lru.evictions + expired.length })
      (toQueue_foldl_detach lru expired)
  constructor
  · have hmatched := ((perm_items h.toIndexed).filter fun item =>
      lru.toQueue.isLive now item && matching item.key item.value).map fun item =>
        (item.key, item.value)
    rw [List.filter_map, List.map_map] at hmatched
    refine (List.Perm.of_eq ?_).trans hmatched.symm
    refine congrArg (List.map _) (List.filter_congr fun entry _ => ?_)
    rw [Function.comp, isLive_toQueue]
    rfl
  · refine (toQueue_foldl_detach (lru.sweep now) matched).trans ?_
    rw [hswept]
    exact Queue.ext rfl rfl rfl hitems rfl rfl (congrArg (lru.evictions + ·) hexpired)

/-- **One call.** A call does to the queue what the queue's own call does. -/
theorem call_refines (h : lru.Valid) (now : Instant) (call : Call κ α) :
    (lru.call now call).1.Alike (lru.toQueue.call now call).1 ∧
      (lru.call now call).2.toQueue = (lru.toQueue.call now call).2 := by
  cases call with
  | get key =>
    rw [Queue.call, get_toQueue h.toIndexed]
    exact ⟨.value _, rfl⟩
  | peek key =>
    rw [Queue.call, peek_toQueue h.toIndexed]
    exact ⟨.value _, rfl⟩
  | insert key value =>
    rw [Queue.call, insert_toQueue h]
    exact ⟨.value _, rfl⟩
  | remove key =>
    rw [Queue.call, remove_toQueue h.toIndexed]
    exact ⟨.value _, rfl⟩
  | removeWhere matching =>
    obtain ⟨hpairs, hqueue⟩ := removeWhere_toQueue h now matching
    exact ⟨.removed hpairs, hqueue⟩
  | clear => exact ⟨.done, Queue.ext rfl rfl rfl rfl rfl rfl rfl⟩

/-- The queue that a run leaves behind. -/
theorem toQueue_after (h : lru.Valid) (calls : List (Instant × Call κ α)) :
    (lru.after calls).toQueue = lru.toQueue.after calls := by
  induction calls generalizing lru with
  | nil => rfl
  | cons timed calls ih =>
    rw [Queue.after, List.foldl_cons, ← (call_refines h timed.1 timed.2).2]
    exact ih (valid_call h timed.1 timed.2).1

/-- A cache and a queue show the same after a call: the answer, the live entries in order at any
moment, the number of entries and their weight, and the counters. -/
structure Shows (shown : Answer κ α × Lru κ α) (expected : Answer κ α × Queue κ α) : Prop where
  answer : shown.1.Alike expected.1
  snapshot : ∀ now, shown.2.snapshot now = expected.2.snapshot now
  size : shown.2.size = expected.2.items.length
  weight : shown.2.totalWeight = Queue.weightOf expected.2.items
  stats : shown.2.stats = expected.2.stats

/-- By induction along the run, each call of which begins in a valid state. -/
theorem trace_shows (h : lru.Valid) (calls : List (Instant × Call κ α)) :
    List.Forall₂ Shows (lru.trace calls) (lru.toQueue.trace calls) := by
  induction calls generalizing lru with
  | nil => exact .nil
  | cons timed calls ih =>
    obtain ⟨hanswer, hqueue⟩ := call_refines h timed.1 timed.2
    have hvalid := (valid_call h timed.1 timed.2).1
    have hrest := ih hvalid
    rw [hqueue] at hrest
    refine .cons ⟨hanswer, fun now => ?_, ?_, ?_, ?_⟩ hrest
    · rw [← hqueue, snapshot_toQueue]
    · rw [← hqueue]
      exact (length_items hvalid.toIndexed).symm
    · rw [← hqueue]
      exact (weightOf_items hvalid.toIndexed).symm
    · rw [← hqueue]
      exact (stats_toQueue hvalid.toIndexed).symm

/-- **A cache is a list.** However a cache is weighed, bounded and used, it shows what the queue
shows under the same calls, and a value that is read was the last one written under its key, less
than the age of expiry ago. -/
theorem trace_refines (maxWeight : Nat) (weigh : κ → α → Nat) (expireAfter : Option Duration)
    (calls : List (Instant × Call κ α)) :
    List.Forall₂ Shows ((new maxWeight weigh expireAfter).trace calls)
        ((Queue.new maxWeight weigh expireAfter).trace calls) ∧
      ∀ now key,
        (((new maxWeight weigh expireAfter).after calls).get now key).1 =
          ((new maxWeight weigh expireAfter).after calls).peek now key ∧
        ∀ value, ((new maxWeight weigh expireAfter).after calls).peek now key = some value →
          ∃ before writtenAt later, calls = before ++ (writtenAt, .insert key value) :: later ∧
            (∀ timed ∈ later, ¬timed.2.Replaces key) ∧
            ∀ limit, expireAfter = some limit →
              (now.since writtenAt).nanoseconds < limit.nanoseconds := by
  have hnew := valid_new maxWeight weigh expireAfter
  refine ⟨trace_shows hnew calls, fun now key => ⟨get_fst _ now key, fun value hvalue => ?_⟩⟩
  obtain ⟨hvalid, hsettings⟩ := valid_run hnew calls
  rw [← peek_toQueue hvalid.toIndexed] at hvalue
  obtain ⟨item, hitem, rfl, rfl, hlive⟩ := Queue.exists_of_peek hvalue
  rw [toQueue_after hnew] at hitem
  obtain ⟨before, later, hcalls, hlater⟩ := Queue.lastWritten_of_mem rfl hitem
  refine ⟨before, item.writtenAt, later, hcalls, hlater, fun limit hlimit => ?_⟩
  rw [Queue.isLive, show (toQueue _).expireAfter = some limit from
    hsettings.expireAfter.trans hlimit] at hlive
  exact of_decide_eq_true hlive

/-- Two writes to one key with a read in between, and one that is too heavy for the other entries:
the list and the cache agree, and what is read is the second value. -/
theorem trace_refines_small_cache :
    let lru : Lru Nat Nat := new 6 (fun _ value => value) (some ⟨10⟩)
    let calls : List (Instant × Call Nat Nat) :=
      [(⟨0⟩, .insert 1 3), (⟨1⟩, .insert 2 2), (⟨2⟩, .get 1), (⟨3⟩, .insert 3 3),
        (⟨4⟩, .insert 1 2)]
    List.Forall₂ Shows (lru.trace calls)
        ((Queue.new 6 (fun _ value => value) (some ⟨10⟩)).trace calls) ∧
      (lru.after calls).evictions = 1 ∧ (lru.after calls).peek ⟨13⟩ 1 = some 2 ∧
      ∃ before writtenAt later, calls = before ++ (writtenAt, .insert 1 2) :: later ∧
        (∀ timed ∈ later, ¬timed.2.Replaces 1) ∧
        ∀ limit, some (⟨10⟩ : Duration) = some limit →
          ((⟨13⟩ : Instant).since writtenAt).nanoseconds < limit.nanoseconds :=
  ⟨(trace_refines 6 _ _ _).1, by decide, by decide,
    ((trace_refines 6 (fun _ value => value) _ _).2 ⟨13⟩ 1).2 2 (by decide)⟩

end Lru
end RecordCache
