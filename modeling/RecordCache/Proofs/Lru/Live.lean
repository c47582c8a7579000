import RecordCache.Proofs.Lru.Contents
import RecordCache.Proofs.Lru.Refinement

/-!
# The live entries of a cache

At a moment the entries that have not reached the age of expiry are a map, and a list in the order
of their last use. A removal drops some keys from the map and filters the list.

* `Lru.live` is the map, with `find?_live`, `live_eq_contents`, `live_remove` and `live_get`;
* `Lru.live_insert`, `contents_insert`: a write puts an entry into it, and into the contents, unless
  something is evicted;
* `Lru.perm_live`: the list holds the same pairs;
* `Lru.snapshot_filter`: the list after some entries are dropped, and `snapshot_removeWhere` after a
  removal by a condition.
-/

namespace RecordCache.Lru

universe u v

variable {κ : Type u} {α : Type v} [Ord κ] {lru lru' : Lru κ α} {now : Instant}

/-- The values of the live entries by key. -/
def live (lru : Lru κ α) (now : Instant) : SortedMap κ α :=
  (lru.entries.filter fun _ entry => !lru.isExpired now entry).mapValues Entry.value

theorem isExpired_congr (hexpire : lru'.expireAfter = lru.expireAfter) (entry : Entry α) :
    lru'.isExpired now entry = lru.isExpired now entry := by
  rw [isExpired, hexpire]
  rfl

theorem peek_congr (hexpire : lru'.expireAfter = lru.expireAfter) {key : κ}
    (hentry : lru'.entries.find? key = lru.entries.find? key) :
    lru'.peek now key = lru.peek now key := by
  rw [peek, hentry, peek]
  cases lru.entries.find? key with
  | none => rfl
  | some entry =>
    dsimp only
    rw [isExpired_congr hexpire]

theorem snapshot_filter (h : lru.Indexed) (h' : lru'.Indexed)
    (hexpire : lru'.expireAfter = lru.expireAfter) (keep : Queue.Item κ α → Bool)
    (spares : κ → α → Bool)
    (hfind : ∀ k, lru'.entries.find? k =
      (lru.entries.find? k).filter fun entry => keep (entry.toItem k))
    (hlive : ∀ item, lru.toQueue.isLive now item = true → keep item = spares item.key item.value) :
    lru'.snapshot now = (lru.snapshot now).filter fun pair => spares pair.1 pair.2 := by
  have hsame : lru'.toQueue.isLive now = lru.toQueue.isLive now := by
    funext item
    rw [Queue.isLive, Queue.isLive, toQueue, toQueue, hexpire]
  rw [← snapshot_toQueue, ← snapshot_toQueue, Queue.snapshot, hsame]
  show ((lru'.items.filter _).map _) = ((lru.items.filter _).map _).filter _
  rw [items_filter h h' hfind, List.filter_filter, List.filter_map, List.filter_filter]
  refine congrArg (List.map _) (List.filter_congr fun item _ => ?_)
  cases hitem : lru.toQueue.isLive now item with
  | false => simp
  | true => simp [hlive item hitem]

section Ordered

variable [Std.TransOrd κ] [Std.LawfulEqOrd κ]

theorem find?_live (lru : Lru κ α) (now : Instant) (key : κ) :
    (lru.live now).find? key = lru.peek now key := by
  rw [live, SortedMap.find?_mapValues, SortedMap.find?_filter, peek]
  cases lru.entries.find? key with
  | none => rfl
  | some entry =>
    rw [Option.filter_some]
    cases hdead : lru.isExpired now entry <;> simp [hdead]

theorem live_eq_contents (hlasting : lru.expireAfter = none) : lru.live now = lru.contents :=
  SortedMap.ext fun key => by rw [find?_live, peek_eq hlasting]

variable [DecidableEq κ]

theorem live_remove (lru : Lru κ α) (now : Instant) (key : κ) :
    (lru.remove now key).2.live now = (lru.live now).erase key := by
  have hexpire := (settings_remove lru now key).expireAfter
  refine SortedMap.ext fun k => ?_
  rw [find?_live, SortedMap.find?_erase, find?_live]
  by_cases hk : k = key
  · rw [if_pos hk, peek, find?_remove, if_pos hk]
  · rw [if_neg hk]
    exact peek_congr hexpire (by rw [find?_remove, if_neg hk])

/-- A read may drop the entry that it is asked for, if that has expired; the live ones stay. -/
theorem live_get (lru : Lru κ α) (now : Instant) (key : κ) :
    (lru.get now key).2.live now = lru.live now := by
  refine SortedMap.ext fun k => ?_
  rw [find?_live, find?_live, get]
  cases hentry : lru.entries.find? key with
  | none => rfl
  | some entry =>
    dsimp only
    by_cases hk : k = key
    · subst hk
      have hpeek : lru.peek now k = if lru.isExpired now entry then none else some entry.value := by
        rw [peek, hentry]
      rw [hpeek]
      split <;> rename_i hexpired
      · rw [peek, expire, detach, SortedMap.find?_erase, if_pos rfl]
      · rw [peek, SortedMap.find?_insert_self]
        exact if_neg hexpired
    · split
      · refine peek_congr ?_ ((SortedMap.find?_erase _ _ _).trans (if_neg hk))
        rfl
      · refine peek_congr ?_ ((SortedMap.find?_insert_eq _ _ _ _).trans (if_neg hk))
        rfl

omit [Std.TransOrd κ] [Std.LawfulEqOrd κ] [DecidableEq κ] in
theorem evictions_le_remove (lru : Lru κ α) (now : Instant) (key : κ) :
    lru.evictions ≤ (lru.remove now key).2.evictions := by
  rw [remove]
  cases lru.entries.find? key with
  | none => exact Nat.le_refl _
  | some entry =>
    dsimp only
    split
    · exact Nat.le_succ _
    · exact Nat.le_refl _

omit [DecidableEq κ] in
theorem evictions_le_get (lru : Lru κ α) (now : Instant) (key : κ) :
    lru.evictions ≤ (lru.get now key).2.evictions := by
  rw [get]
  cases lru.entries.find? key with
  | none => exact Nat.le_refl _
  | some entry =>
    dsimp only
    split
    · exact Nat.le_succ _
    · exact Nat.le_refl _

/-- A write evicts something, or its key had no entry that has expired and it puts a new entry
there, beside the others. -/
theorem find?_insert_kept (h : lru.Valid) (now : Instant) (key : κ) (value : α) :
    lru.evictions ≤ (lru.insert now key value).2.evictions ∧
      ((lru.insert now key value).2.evictions = lru.evictions →
        (∀ old, lru.entries.find? key = some old → lru.isExpired now old = false) ∧
        ∃ entry : Entry α, entry.value = value ∧ entry.writtenAt = now ∧
          ∀ k, (lru.insert now key value).2.entries.find? k =
            if k = key then some entry else lru.entries.find? k) := by
  have hshrinks := shrinks_insert h now key value
  have hremove : lru.evictions ≤ ((lru.remove now key).2.attach now key value).evictions :=
    evictions_le_remove lru now key
  refine ⟨Nat.le_trans hremove hshrinks.evictions, fun hnone => ⟨fun old hold => ?_, ?_⟩⟩
  · -- an expired entry that is replaced counts as an eviction
    by_contra hexpired
    rw [Bool.not_eq_false] at hexpired
    have hmore : ((lru.remove now key).2.attach now key value).evictions = lru.evictions + 1 := by
      simp only [remove, hold, hexpired, if_true]
      rfl
    have hless := hshrinks.evictions
    omega
  · let written := (lru.remove now key).2
    rw [hshrinks.unchanged (Nat.le_antisymm (hnone ▸ hremove) hshrinks.evictions)]
    refine ⟨⟨value, written.weigh key value, written.nextTick, now⟩, rfl, rfl, fun k => ?_⟩
    refine (SortedMap.find?_insert_eq _ _ _ _).trans ?_
    by_cases hk : k = key
    · rw [if_pos hk, if_pos hk]
    · rw [if_neg hk, if_neg hk, find?_remove, if_neg hk]

/-- A write evicts something, or does what it does to a map. -/
theorem live_insert (h : lru.Valid) (hexpire : lru.expireAfter ≠ some ⟨0⟩) (key : κ) (value : α) :
    lru.evictions ≤ (lru.insert now key value).2.evictions ∧
      ((lru.insert now key value).2.evictions = lru.evictions →
        (lru.insert now key value).2.live now = (lru.live now).insert key value) := by
  obtain ⟨hmore, hkept⟩ := find?_insert_kept h now key value
  refine ⟨hmore, fun hnone => ?_⟩
  obtain ⟨-, entry, rfl, rfl, hfind⟩ := hkept hnone
  have hsettings := (settings_insert h entry.writtenAt key entry.value).expireAfter
  refine SortedMap.ext fun k => ?_
  rw [find?_live, SortedMap.find?_insert_eq]
  by_cases hk : k = key
  · rw [if_pos hk, peek, hfind, if_pos hk]
    exact if_neg (Bool.eq_false_iff.1 (isExpired_of_written (hsettings ▸ hexpire) entry))
  · rw [if_neg hk, find?_live]
    exact peek_congr hsettings (by rw [hfind, if_neg hk])

/-- The same for the values of all entries, expired ones included: the write also finds what a look
at the key shows. -/
theorem contents_insert (h : lru.Valid) (now : Instant) (key : κ) (value : α)
    (hnone : (lru.insert now key value).2.evictions = lru.evictions) :
    lru.peek now key = lru.contents.find? key ∧
      (lru.insert now key value).2.contents = lru.contents.insert key value := by
  obtain ⟨hlive, entry, rfl, -, hfind⟩ := (find?_insert_kept h now key value).2 hnone
  constructor
  · rw [peek, find?_contents]
    cases hold : lru.entries.find? key with
    | none => rfl
    | some old => exact if_neg (Bool.eq_false_iff.1 (hlive old hold))
  · refine SortedMap.ext fun k => ?_
    rw [find?_contents, hfind, SortedMap.find?_insert_eq, find?_contents]
    split <;> rfl

/-- A removal by a condition leaves the live entries that the condition spares, in the same order,
and lists the others. -/
theorem snapshot_removeWhere (h : lru.Valid) (now : Instant) (matching : κ → α → Bool) :
    (lru.removeWhere now matching).2.snapshot now =
        (lru.snapshot now).filter (fun pair => !matching pair.1 pair.2) ∧
      (lru.removeWhere now matching).1.length =
        (lru.snapshot now).countP fun pair => matching pair.1 pair.2 := by
  obtain ⟨hvalid, hfind⟩ := removeWhere_spec h now matching
  have hexpire := (settings_removeWhere lru now matching).expireAfter
  constructor
  · refine snapshot_filter h.toIndexed hvalid.toIndexed hexpire
      (fun item => lru.toQueue.isLive now item && !matching item.key item.value)
      (fun key value => !matching key value) (fun k => ?_)
      fun item hlive => by rw [hlive, Bool.true_and]
    simp only [hfind, isLive_toQueue]
    rfl
  · obtain ⟨hpairs, -⟩ := removeWhere_toQueue h now matching
    rw [hpairs.length_eq, ← snapshot_toQueue, Queue.snapshot, List.countP_map,
      List.countP_filter, List.countP_eq_length_filter]
    show (List.map _ _).length = _
    rw [List.length_map]
    refine congrArg List.length (List.filter_congr fun item _ => ?_)
    exact Bool.and_comm _ _

end Ordered

end RecordCache.Lru
