import RecordCache.Proofs.Lru.Valid

/-!
# Operations of a cache bounded by weight

Every operation keeps the state valid and the settings as they are.

* `Lru.Keeps` says so of two states, and that what holds of all entries still does; `keeps_get`,
  `keeps_insert`, `keeps_remove`, `keeps_removeWhere`, `keeps_clear` of the operations;
* `Lru.peek_insert`: an entry that was written is there exactly if it fits by itself;
* `Lru.find?_remove`, `sweep_spec`, `removeWhere_spec`: what a removal leaves.
-/

namespace RecordCache.Lru

universe u v

variable {κ : Type u} {α : Type v} [Ord κ]

/-- The cache without the entries that have reached the age of expiry, each counted as an
eviction. -/
def sweep (lru : Lru κ α) (now : Instant) : Lru κ α :=
  (lru.entries.entries.filter fun entry => lru.isExpired now entry.2).foldl
    (fun lru entry => lru.expire entry.1 entry.2) lru

variable [Std.TransOrd κ] [Std.LawfulEqOrd κ] [DecidableEq κ] {lru : Lru κ α} {key : κ}
  {entry : Entry α}

omit [Std.TransOrd κ] [DecidableEq κ] [Std.LawfulEqOrd κ] in
/-- What is removed is what a look at it shows. -/
theorem remove_fst (lru : Lru κ α) (now : Instant) (key : κ) :
    (lru.remove now key).1 = lru.peek now key := by
  rw [remove, peek]
  cases lru.entries.find? key with
  | none => rfl
  | some entry =>
    dsimp only
    split <;> rfl

omit [DecidableEq κ] in
/-- What is read is what a look at it shows. -/
theorem get_fst (lru : Lru κ α) (now : Instant) (key : κ) :
    (lru.get now key).1 = lru.peek now key := by
  rw [get, peek]
  cases lru.entries.find? key with
  | none => rfl
  | some entry =>
    dsimp only
    split <;> rfl

omit [Std.TransOrd κ] in
theorem find?_remove (lru : Lru κ α) (now : Instant) (key k : κ) :
    (lru.remove now key).2.entries.find? k =
      if k = key then none else lru.entries.find? k := by
  rw [remove]
  cases hentry : lru.entries.find? key with
  | none =>
    by_cases hk : k = key
    · rw [if_pos hk, hk]
      exact hentry
    · rw [if_neg hk]
  | some entry =>
    dsimp only
    split <;> exact SortedMap.find?_erase _ _ _

omit [Std.TransOrd κ] in
theorem find?_remove_self (lru : Lru κ α) (now : Instant) (key : κ) :
    (lru.remove now key).2.entries.find? key = none := by
  rw [find?_remove, if_pos rfl]

omit [Std.TransOrd κ] [DecidableEq κ] [Std.LawfulEqOrd κ] in
theorem settings_remove (lru : Lru κ α) (now : Instant) (key : κ) :
    SameSettings lru (lru.remove now key).2 := by
  rw [remove]
  cases lru.entries.find? key with
  | none => exact .refl lru
  | some entry =>
    dsimp only
    split <;> exact ⟨rfl, rfl, rfl⟩

/-- To put an entry back that was dropped is to give it a new tick. -/
theorem attach_detach (h : lru.Indexed) (hentry : lru.entries.find? key = some entry) :
    (lru.detach key entry).attach entry.writtenAt key entry.value =
      { lru with
        entries := lru.entries.insert key { entry with tick := lru.nextTick }
        recency := (lru.recency.erase entry.tick).insert lru.nextTick key
        nextTick := lru.nextTick + 1 } := by
  have hweight := h.weighed key entry hentry
  have htotal : lru.totalWeight - entry.weight + entry.weight = lru.totalWeight := by
    have hparts := weightOf_erase hentry
    have hsum := h.total
    omega
  simp only [attach, detach, ← hweight, SortedMap.insert_erase_self, htotal]

section Operations

variable (h : lru.Valid)

include h

/-- Dropping an entry keeps the bound. -/
theorem valid_detach (hentry : lru.entries.find? key = some entry) :
    (lru.detach key entry).Valid :=
  ⟨indexed_detach h.toIndexed hentry, Nat.le_trans (Nat.sub_le _ _) h.bounded⟩

theorem valid_expire (hentry : lru.entries.find? key = some entry) :
    (lru.expire key entry).Valid :=
  ⟨(indexed_detach h.toIndexed hentry).withEvictions _, (valid_detach h hentry).bounded⟩

theorem valid_remove (now : Instant) (key : κ) : (lru.remove now key).2.Valid := by
  rw [remove]
  cases hentry : lru.entries.find? key with
  | none => exact h
  | some entry =>
    dsimp only
    split
    · exact valid_expire h hentry
    · exact valid_detach h hentry

theorem valid_get (now : Instant) (key : κ) : (lru.get now key).2.Valid := by
  rw [get]
  cases hentry : lru.entries.find? key with
  | none => exact ⟨⟨h.listed, h.fresh, h.weighed, h.total⟩, h.bounded⟩
  | some entry =>
    dsimp only
    split
    · have hexpired := valid_expire h hentry
      exact ⟨⟨hexpired.listed, hexpired.fresh, hexpired.weighed, hexpired.total⟩, hexpired.bounded⟩
    · -- The entry is dropped and put back with a new tick.
      have hgone : (lru.detach key entry).entries.find? key = none := by
        show (lru.entries.erase key).find? key = none
        rw [SortedMap.find?_erase, if_pos rfl]
      have hback := indexed_attach (indexed_detach h.toIndexed hentry) hgone entry.writtenAt
        entry.value
      rw [attach_detach h.toIndexed hentry] at hback
      exact ⟨⟨hback.listed, hback.fresh, hback.weighed, hback.total⟩, h.bounded⟩

/-- What is left after an entry is written. -/
theorem shrinks_insert (now : Instant) (key : κ) (value : α) :
    Shrinks ((lru.remove now key).2.attach now key value) (lru.insert now key value).2 := by
  have hattached :=
    indexed_attach (valid_remove h now key).toIndexed (find?_remove_self lru now key)
    now value
  exact (evictUntilFits_spec _ hattached rfl).1

theorem valid_insert (now : Instant) (key : κ) (value : α) : (lru.insert now key value).2.Valid :=
  (shrinks_insert h now key value).valid

theorem settings_insert (now : Instant) (key : κ) (value : α) :
    SameSettings lru (lru.insert now key value).2 := by
  have hsettings := (shrinks_insert h now key value).settings
  exact (settings_remove lru now key).trans
    ⟨hsettings.weigh, hsettings.maxWeight, hsettings.expireAfter⟩

/-- An entry that fits by itself is kept, since it is the one used last. -/
theorem find?_insert_of_fits {now : Instant} {key : κ} {value : α}
    (hfits : lru.weigh key value ≤ lru.maxWeight) :
    (lru.insert now key value).2.entries.find? key =
      some ⟨value, lru.weigh key value, (lru.remove now key).2.nextTick, now⟩ := by
  have hsettings := settings_remove lru now key
  have hremoved := valid_remove h now key
  have hattached := indexed_attach hremoved.toIndexed (find?_remove_self lru now key) now value
  have hfind (k : κ) : ((lru.remove now key).2.attach now key value).entries.find? k =
      if k = key then
        some ⟨value, (lru.remove now key).2.weigh key value, (lru.remove now key).2.nextTick, now⟩
      else (lru.remove now key).2.entries.find? k :=
    SortedMap.find?_insert_eq _ _ _ _
  rw [← hsettings.weigh]
  refine (evictUntilFits_spec _ hattached rfl).2 key _ ⟨by rw [hfind, if_pos rfl], ?_⟩ ?_
  · intro k entry hentry
    rw [hfind] at hentry
    split at hentry
    · cases hentry
      exact Nat.le_refl _
    · exact Nat.le_of_lt (hremoved.fresh k entry hentry)
  · show (lru.remove now key).2.weigh key value ≤ (lru.remove now key).2.maxWeight
    rw [hsettings.weigh, hsettings.maxWeight]
    exact hfits

/-- One that does not fit by itself is dropped again. -/
theorem find?_insert_of_heavy {now : Instant} {key : κ} {value : α}
    (hheavy : lru.maxWeight < lru.weigh key value) :
    (lru.insert now key value).2.entries.find? key = none := by
  have hshrinks := shrinks_insert h now key value
  have hsettings := settings_insert h now key value
  cases hfind : (lru.insert now key value).2.entries.find? key with
  | none => rfl
  | some entry =>
    have hattached := hshrinks.among key entry hfind
    have hinserted : ((lru.remove now key).2.entries.insert key _).find? key = some entry :=
      hattached
    rw [SortedMap.find?_insert_self] at hinserted
    have hvalue : entry.value = value := by
      cases hinserted
      rfl
    have hweight := hshrinks.valid.weighed key entry hfind
    rw [hvalue, hsettings.weigh] at hweight
    have htotal := hshrinks.valid.total
    have hparts := weightOf_erase hfind
    have hbounded := hshrinks.valid.bounded
    rw [hsettings.maxWeight] at hbounded
    omega

omit [Std.TransOrd κ] [Std.LawfulEqOrd κ] [DecidableEq κ] h in
/-- An entry does not expire at the moment it is written, if the age of expiry is not zero. -/
theorem isExpired_of_written (hexpire : lru.expireAfter ≠ some ⟨0⟩) (entry : Entry α) :
    lru.isExpired entry.writtenAt entry = false := by
  rw [isExpired]
  cases hlimit : lru.expireAfter with
  | none => rfl
  | some limit =>
    refine decide_eq_false fun hle => hexpire ?_
    have hzero : limit.nanoseconds = 0 := by simpa [Instant.since] using hle
    rw [hlimit, ← hzero]

/-- An entry that was written is there exactly if it fits by itself. -/
theorem peek_insert (hexpire : lru.expireAfter ≠ some ⟨0⟩) (now : Instant) (key : κ) (value : α) :
    (lru.insert now key value).2.peek now key =
      if lru.weigh key value ≤ lru.maxWeight then some value else none := by
  have hsettings := settings_insert h now key value
  by_cases hfits : lru.weigh key value ≤ lru.maxWeight
  · rw [if_pos hfits, peek, find?_insert_of_fits h hfits]
    exact if_neg (Bool.eq_false_iff.1
      (isExpired_of_written (hsettings.expireAfter ▸ hexpire) (Entry.mk value _ _ now)))
  · rw [if_neg hfits, peek, find?_insert_of_heavy h (Nat.lt_of_not_le hfits)]

/-- Dropping several entries, each of which is there. -/
theorem valid_foldl_detach {doomed : List (κ × Entry α)} (hnodup : (doomed.map Prod.fst).Nodup)
    (hdoomed : ∀ pair ∈ doomed, lru.entries.find? pair.1 = some pair.2) :
    (doomed.foldl (fun lru pair => lru.detach pair.1 pair.2) lru).Valid ∧
      ∀ k, (doomed.foldl (fun lru pair => lru.detach pair.1 pair.2) lru).entries.find? k =
        if k ∈ doomed.map Prod.fst then none else lru.entries.find? k := by
  induction doomed generalizing lru with
  | nil => exact ⟨h, fun k => rfl⟩
  | cons pair doomed ih =>
    obtain ⟨hpair, hrest⟩ := List.forall_mem_cons.1 hdoomed
    rw [List.map_cons, List.nodup_cons] at hnodup
    have hfind (k : κ) : (lru.detach pair.1 pair.2).entries.find? k =
        if k = pair.1 then none else lru.entries.find? k := SortedMap.find?_erase _ _ _
    have hkept : ∀ other ∈ doomed,
        (lru.detach pair.1 pair.2).entries.find? other.1 = some other.2 := by
      intro other hother
      rw [hfind, if_neg, hrest other hother]
      intro hkey
      exact hnodup.1 (hkey ▸ List.mem_map_of_mem hother)
    obtain ⟨hvalid, hall⟩ := ih (valid_detach h hpair) hnodup.2 hkept
    refine ⟨hvalid, fun k => ?_⟩
    rw [List.foldl_cons, hall, hfind, List.map_cons]
    by_cases hmem : k ∈ doomed.map Prod.fst
    · rw [if_pos hmem, if_pos (List.mem_cons_of_mem _ hmem)]
    · rw [if_neg hmem]
      exact if_congr (by simp [hmem]) rfl rfl

omit [Std.TransOrd κ] [Std.LawfulEqOrd κ] [DecidableEq κ] h in
/-- Dropping entries for their age differs from dropping them in the counter only. -/
theorem foldl_expire (lru : Lru κ α) (doomed : List (κ × Entry α)) :
    doomed.foldl (fun lru pair => lru.expire pair.1 pair.2) lru =
      { doomed.foldl (fun lru pair => lru.detach pair.1 pair.2) lru with
        evictions := lru.evictions + doomed.length } := by
  have hdetach : ∀ (doomed : List (κ × Entry α)) (lru : Lru κ α) (n : Nat),
      doomed.foldl (fun lru pair => lru.detach pair.1 pair.2) { lru with evictions := n } =
        { doomed.foldl (fun lru pair => lru.detach pair.1 pair.2) lru with evictions := n } := by
    intro doomed
    induction doomed with
    | nil => exact fun _ _ => rfl
    | cons pair doomed ih => exact fun lru n => ih (lru.detach pair.1 pair.2) n
  induction doomed generalizing lru with
  | nil => rfl
  | cons pair doomed ih =>
    rw [List.foldl_cons, ih, List.foldl_cons, expire, hdetach, List.length_cons, Nat.add_assoc,
      Nat.add_comm 1]

omit [Std.TransOrd κ] [Std.LawfulEqOrd κ] [DecidableEq κ] h in
theorem settings_foldl_detach (lru : Lru κ α) (doomed : List (κ × Entry α)) :
    SameSettings lru (doomed.foldl (fun lru pair => lru.detach pair.1 pair.2) lru) := by
  induction doomed generalizing lru with
  | nil => exact .refl lru
  | cons pair doomed ih =>
    have hfirst : SameSettings lru (lru.detach pair.1 pair.2) := ⟨rfl, rfl, rfl⟩
    exact hfirst.trans (ih _)

omit [Std.TransOrd κ] [Std.LawfulEqOrd κ] [DecidableEq κ] h in
theorem settings_removeWhere (lru : Lru κ α) (now : Instant) (matching : κ → α → Bool) :
    SameSettings lru (lru.removeWhere now matching).2 := by
  rw [removeWhere, foldl_expire]
  have hswept := settings_foldl_detach lru
    (lru.entries.entries.filter fun entry => lru.isExpired now entry.2)
  refine SameSettings.trans ?_ (settings_foldl_detach _ _)
  exact ⟨hswept.weigh, hswept.maxWeight, hswept.expireAfter⟩

omit [DecidableEq κ] h in
theorem settings_get (lru : Lru κ α) (now : Instant) (key : κ) :
    SameSettings lru (lru.get now key).2 := by
  rw [get]
  cases lru.entries.find? key with
  | none => exact ⟨rfl, rfl, rfl⟩
  | some entry =>
    dsimp only
    split <;> exact ⟨rfl, rfl, rfl⟩

/-- The same for the entries of a map. -/
theorem valid_detachAll {doomed : SortedMap κ (Entry α)}
    (hdoomed : ∀ k entry, doomed.find? k = some entry → lru.entries.find? k = some entry) :
    (doomed.entries.foldl (fun lru pair => lru.detach pair.1 pair.2) lru).Valid ∧
      ∀ k, (doomed.entries.foldl (fun lru pair => lru.detach pair.1 pair.2) lru).entries.find? k =
        if (doomed.find? k).isSome then none else lru.entries.find? k := by
  obtain ⟨hvalid, hfind⟩ := valid_foldl_detach h doomed.nodup_keys fun pair hpair =>
    hdoomed pair.1 pair.2 (SortedMap.find?_eq_some_iff_mem.2 hpair)
  refine ⟨hvalid, fun k => ?_⟩
  rw [hfind]
  exact if_congr (SortedMap.mem_keys.trans Option.isSome_iff_exists.symm) rfl rfl

/-- A sweep leaves the live entries. -/
theorem sweep_spec (now : Instant) :
    (lru.sweep now).Valid ∧ ∀ k, (lru.sweep now).entries.find? k =
      (lru.entries.find? k).filter fun entry => !lru.isExpired now entry := by
  let expired := lru.entries.filter fun _ entry => lru.isExpired now entry
  have hexpired (k : κ) : expired.find? k = _ := SortedMap.find?_filter _ lru.entries k
  obtain ⟨hvalid, hfind⟩ := valid_detachAll h fun k entry hfind =>
    (Option.filter_eq_some_iff.1 ((hexpired k).symm.trans hfind)).1
  have hsame : lru.sweep now =
      { expired.entries.foldl (fun lru pair => lru.detach pair.1 pair.2) lru with
        evictions := lru.evictions + expired.entries.length } := foldl_expire lru _
  rw [hsame]
  refine ⟨⟨hvalid.toIndexed.withEvictions _, hvalid.bounded⟩, fun k => (hfind k).trans ?_⟩
  rw [hexpired]
  cases lru.entries.find? k with
  | none => rfl
  | some entry => cases hdead : lru.isExpired now entry <;> simp [Option.filter_some, hdead]

/-- The entries that a removal by a condition drops after the sweep are there. -/
theorem find?_sweep_of_matched {now : Instant} (matching : κ → α → Bool) {k : κ}
    {entry : Entry α} (hfind : (lru.entries.filter fun k entry =>
      !lru.isExpired now entry && matching k entry.value).find? k = some entry) :
    (lru.sweep now).entries.find? k = some entry := by
  rw [SortedMap.find?_filter] at hfind
  obtain ⟨hentry, hmatched⟩ := Option.filter_eq_some_iff.1 hfind
  rw [(sweep_spec h now).2, hentry]
  exact if_pos (Bool.and_eq_true_iff.1 hmatched).1

/-- A removal by a condition leaves the live entries that the condition spares. -/
theorem removeWhere_spec (now : Instant) (matching : κ → α → Bool) :
    (lru.removeWhere now matching).2.Valid ∧
      ∀ k, (lru.removeWhere now matching).2.entries.find? k =
        (lru.entries.find? k).filter fun entry =>
          !lru.isExpired now entry && !matching k entry.value := by
  obtain ⟨hsweep, hswept⟩ := sweep_spec h now
  obtain ⟨hvalid, hfind⟩ := valid_detachAll hsweep fun k entry hk =>
    find?_sweep_of_matched h matching hk
  refine ⟨hvalid, fun k => (hfind k).trans ?_⟩
  rw [hswept, SortedMap.find?_filter]
  cases lru.entries.find? k with
  | none => rfl
  | some entry =>
    cases hdead : lru.isExpired now entry <;> cases hmatching : matching k entry.value <;>
      simp [Option.filter_some, hdead, hmatching]

end Operations

/-- Every entry has the property. -/
def All (P : κ → α → Prop) (lru : Lru κ α) : Prop :=
  ∀ key entry, lru.entries.find? key = some entry → P key entry.value

omit [Std.TransOrd κ] [Std.LawfulEqOrd κ] [DecidableEq κ] in
theorem all_of_empty {P : κ → α → Prop} {lru : Lru κ α} (h : lru.entries = ∅) : lru.All P := by
  intro key entry hfind
  rw [h] at hfind
  cases hfind

/-- Whatever a valid cache holds fits by itself. -/
theorem Valid.all_fit {lru : Lru κ α} (h : lru.Valid) :
    lru.All fun key value => lru.weigh key value ≤ lru.maxWeight := by
  intro key entry hentry
  have hbounded := h.bounded
  rw [h.total, weightOf_erase hentry, h.weighed key entry hentry] at hbounded
  omega

omit [Std.TransOrd κ] [Std.LawfulEqOrd κ] [DecidableEq κ] in
theorem All.of_peek {P : κ → α → Prop} {lru : Lru κ α} (h : lru.All P) {now : Instant} {key : κ}
    {value : α} (hpeek : lru.peek now key = some value) : P key value := by
  rw [peek] at hpeek
  cases hentry : lru.entries.find? key with
  | none =>
    rw [hentry] at hpeek
    cases hpeek
  | some entry =>
    rw [hentry] at hpeek
    dsimp only at hpeek
    split at hpeek
    · cases hpeek
    · cases hpeek
      exact h key entry hentry

/-- From a valid state the second one is valid, its settings are those of the first, and what holds
of all entries still does. -/
def Keeps (P : κ → α → Prop) (lru lru' : Lru κ α) : Prop :=
  lru.Valid → lru'.Valid ∧ SameSettings lru lru' ∧ (lru.All P → lru'.All P)

variable {P : κ → α → Prop}

omit [Std.TransOrd κ] [Std.LawfulEqOrd κ] [DecidableEq κ] in
theorem Keeps.refl (lru : Lru κ α) : Keeps P lru lru := fun h => ⟨h, .refl lru, id⟩

omit [Std.TransOrd κ] [Std.LawfulEqOrd κ] [DecidableEq κ] in
theorem Keeps.trans {a b c : Lru κ α} (hab : Keeps P a b) (hbc : Keeps P b c) : Keeps P a c := by
  intro h
  obtain ⟨hb, hsame, hall⟩ := hab h
  obtain ⟨hc, hsame', hall'⟩ := hbc hb
  exact ⟨hc, hsame.trans hsame', hall' ∘ hall⟩

theorem keeps_get (lru : Lru κ α) (now : Instant) (key : κ) : Keeps P lru (lru.get now key).2 := by
  refine fun h => ⟨valid_get h now key, settings_get lru now key, fun hall k entry hfind => ?_⟩
  rw [get] at hfind
  cases hentry : lru.entries.find? key with
  | none =>
    rw [hentry] at hfind
    exact hall k entry hfind
  | some old =>
    rw [hentry] at hfind
    dsimp only at hfind
    split at hfind
    · exact hall k entry (SortedMap.find?_erase_eq_some.1 hfind).2
    · have hinserted : (lru.entries.insert key _).find? k = some entry := hfind
      rw [SortedMap.find?_insert_eq] at hinserted
      split at hinserted
      · rename_i hk
        cases hinserted
        rw [hk]
        exact hall key old hentry
      · exact hall k entry hinserted

theorem keeps_insert (lru : Lru κ α) (now : Instant) {key : κ} {value : α} (hP : P key value) :
    Keeps P lru (lru.insert now key value).2 := by
  refine fun h => ⟨valid_insert h now key value, settings_insert h now key value,
    fun hall k entry hfind => ?_⟩
  have hattached : ((lru.remove now key).2.entries.insert key _).find? k = some entry :=
    (shrinks_insert h now key value).among k entry hfind
  rw [SortedMap.find?_insert_eq] at hattached
  split at hattached
  · rename_i hk
    cases hattached
    rw [hk]
    exact hP
  · rename_i hk
    rw [find?_remove, if_neg hk] at hattached
    exact hall k entry hattached

theorem keeps_remove (lru : Lru κ α) (now : Instant) (key : κ) :
    Keeps P lru (lru.remove now key).2 := by
  refine fun h =>
    ⟨valid_remove h now key, settings_remove lru now key, fun hall k entry hfind => ?_⟩
  rw [find?_remove] at hfind
  split at hfind
  · cases hfind
  · exact hall k entry hfind

theorem keeps_removeWhere (lru : Lru κ α) (now : Instant) (matching : κ → α → Bool) :
    Keeps P lru (lru.removeWhere now matching).2 := by
  refine fun h => ⟨(removeWhere_spec h now matching).1, settings_removeWhere lru now matching,
    fun hall k entry hfind => ?_⟩
  rw [(removeWhere_spec h now matching).2] at hfind
  exact hall k entry (Option.filter_eq_some_iff.1 hfind).1

omit [Std.TransOrd κ] [Std.LawfulEqOrd κ] [DecidableEq κ] in
theorem keeps_clear (lru : Lru κ α) : Keeps P lru lru.clear :=
  fun _ => ⟨valid_clear, ⟨rfl, rfl, rfl⟩, fun _ => all_of_empty rfl⟩

end RecordCache.Lru
