import Mathlib.Algebra.GroupWithZero.Nat
import RecordCache.Lru
import RecordCache.Proofs.SortedMap

/-!
# The state of a cache bounded by weight

The index lists each entry under its tick and nothing else, ticks to come are larger than all drawn
so far, and the total is the weight of the entries, which is within the bound.

* `Lru.Indexed` and `Lru.Valid`: the invariant without and with the bound;
* `Lru.indexed_detach`, `indexed_attach`: the two changes of an entry;
* `Lru.evictUntilFits_spec`: dropping the entries used longest ago until the rest fits.
-/

namespace RecordCache.Lru

universe u v

variable {κ : Type u} {α : Type v} [Ord κ]

/-- The weight of some entries together. -/
def weightOf (entries : SortedMap κ (Entry α)) : Nat := (entries.values.map Entry.weight).sum

/-- The index lists each entry under its tick and nothing else, ticks to come are larger than all
drawn so far, and the total is the weight of the entries, each as it is weighed. -/
structure Indexed (lru : Lru κ α) : Prop where
  listed : ∀ tick key, lru.recency.find? tick = some key ↔
    ∃ entry, lru.entries.find? key = some entry ∧ entry.tick = tick
  fresh : ∀ key entry, lru.entries.find? key = some entry → entry.tick < lru.nextTick
  weighed : ∀ key entry, lru.entries.find? key = some entry →
    entry.weight = lru.weigh key entry.value
  total : lru.totalWeight = weightOf lru.entries

/-- The entries are indexed, and fit. -/
structure Valid (lru : Lru κ α) : Prop extends Indexed lru where
  bounded : lru.totalWeight ≤ lru.maxWeight

/-- The settings of a cache are those of another. -/
structure SameSettings (lru lru' : Lru κ α) : Prop where
  weigh : lru'.weigh = lru.weigh
  maxWeight : lru'.maxWeight = lru.maxWeight
  expireAfter : lru'.expireAfter = lru.expireAfter

theorem SameSettings.refl (lru : Lru κ α) : SameSettings lru lru := ⟨rfl, rfl, rfl⟩

theorem SameSettings.trans {a b c : Lru κ α} (hab : SameSettings a b) (hbc : SameSettings b c) :
    SameSettings a c :=
  ⟨hbc.weigh.trans hab.weigh, hbc.maxWeight.trans hab.maxWeight,
    hbc.expireAfter.trans hab.expireAfter⟩

theorem valid_of_empty {lru : Lru κ α} (hentries : lru.entries = ∅) (hrecency : lru.recency = ∅)
    (htotal : lru.totalWeight = 0) : lru.Valid where
  listed tick key := by
    rw [hentries, hrecency]
    constructor
    · intro hfind
      cases hfind
    · rintro ⟨entry, hfind, -⟩
      cases hfind
  fresh key entry hfind := by
    rw [hentries] at hfind
    cases hfind
  weighed key entry hfind := by
    rw [hentries] at hfind
    cases hfind
  total := by
    rw [hentries, htotal]
    rfl
  bounded := by
    rw [htotal]
    exact Nat.zero_le _

theorem valid_new (maxWeight : Nat) (weigh : κ → α → Nat) (expireAfter : Option Duration) :
    (new maxWeight weigh expireAfter).Valid := valid_of_empty rfl rfl rfl

/-- Counters play no part. -/
theorem Indexed.withEvictions {lru : Lru κ α} (h : lru.Indexed) (n : Nat) :
    Indexed { lru with evictions := n } :=
  ⟨h.listed, h.fresh, h.weighed, h.total⟩

theorem valid_clear {lru : Lru κ α} : lru.clear.Valid := valid_of_empty rfl rfl rfl

section Weights

variable [Std.TransOrd κ] [Std.LawfulEqOrd κ] [DecidableEq κ]

/-- The weight of an entry and that of the others. -/
theorem weightOf_erase {entries : SortedMap κ (Entry α)} {key : κ} {entry : Entry α}
    (h : entries.find? key = some entry) :
    weightOf entries = entry.weight + weightOf (entries.erase key) :=
  (((SortedMap.perm_erase h).map Prod.snd).map Entry.weight).sum_nat

theorem weightOf_insert (entries : SortedMap κ (Entry α)) (key : κ) (entry : Entry α) :
    weightOf (entries.insert key entry) = entry.weight + weightOf (entries.erase key) := by
  rw [weightOf_erase (SortedMap.find?_insert_self entries key entry)]
  rw [SortedMap.erase_insert_self]

omit [DecidableEq κ] in
theorem weightOf_eq_zero {entries : SortedMap κ (Entry α)} (h : ∀ key, entries.find? key = none) :
    weightOf entries = 0 := by
  rw [weightOf, SortedMap.values, List.isEmpty_iff.1 (SortedMap.isEmpty_iff.2 h)]
  rfl

end Weights

variable [Std.TransOrd κ] [Std.LawfulEqOrd κ] [DecidableEq κ] {lru : Lru κ α} {key : κ}
  {entry : Entry α}

/-- Dropping an entry keeps the index. -/
theorem indexed_detach (h : lru.Indexed) (hentry : lru.entries.find? key = some entry) :
    (lru.detach key entry).Indexed where
  listed tick' key' := by
    show (lru.recency.erase entry.tick).find? tick' = some key' ↔
      ∃ entry', (lru.entries.erase key).find? key' = some entry' ∧ entry'.tick = tick'
    have htick := (h.listed entry.tick key).2 ⟨entry, hentry, rfl⟩
    simp only [SortedMap.find?_erase]
    -- an entry and its tick go together: no other key has the tick, no other tick the key
    constructor
    · intro hfind
      split at hfind
      · cases hfind
      · rename_i hne
        obtain ⟨entry', hentry', rfl⟩ := (h.listed tick' key').1 hfind
        refine ⟨entry', ?_, rfl⟩
        rw [if_neg, hentry']
        rintro rfl
        rw [hentry] at hentry'
        cases hentry'
        exact hne rfl
    · rintro ⟨entry', hentry', rfl⟩
      split at hentry'
      · cases hentry'
      · rename_i hne
        have hlisted := (h.listed entry'.tick key').2 ⟨entry', hentry', rfl⟩
        rw [if_neg, hlisted]
        intro hsame
        rw [hsame, htick] at hlisted
        cases hlisted
        exact hne rfl
  fresh key' entry' hfind := h.fresh key' entry' (SortedMap.find?_erase_eq_some.1 hfind).2
  weighed key' entry' hfind := h.weighed key' entry' (SortedMap.find?_erase_eq_some.1 hfind).2
  total := by
    show lru.totalWeight - entry.weight = weightOf (lru.entries.erase key)
    rw [h.total, weightOf_erase hentry, Nat.add_sub_cancel_left]

/-- Putting an entry under a new key keeps the index. -/
theorem indexed_attach (h : lru.Indexed) (hnone : lru.entries.find? key = none) (now : Instant)
    (value : α) : (lru.attach now key value).Indexed where
  listed tick' key' := by
    show (lru.recency.insert lru.nextTick key).find? tick' = some key' ↔
      ∃ entry', (lru.entries.insert key _).find? key' = some entry' ∧ entry'.tick = tick'
    simp only [SortedMap.find?_insert_eq]
    -- the new tick is larger than every other, so no entry stands at it yet
    constructor
    · intro hfind
      split at hfind
      · rename_i htick
        cases hfind
        exact ⟨_, if_pos rfl, htick.symm⟩
      · obtain ⟨entry', hentry', htick⟩ := (h.listed tick' key').1 hfind
        refine ⟨entry', ?_, htick⟩
        rw [if_neg, hentry']
        rintro rfl
        rw [hnone] at hentry'
        cases hentry'
    · rintro ⟨entry', hentry', rfl⟩
      split at hentry'
      · rename_i hkey
        cases hentry'
        rw [if_pos rfl, hkey]
      · have hlt := h.fresh key' entry' hentry'
        rw [if_neg (Nat.ne_of_lt hlt)]
        exact (h.listed entry'.tick key').2 ⟨entry', hentry', rfl⟩
  fresh key' entry' hfind := by
    have hinserted : (lru.entries.insert key _).find? key' = some entry' := hfind
    rw [SortedMap.find?_insert_eq] at hinserted
    split at hinserted
    · cases hinserted
      exact Nat.lt_succ_self _
    · exact Nat.lt_succ_of_lt (h.fresh key' entry' hinserted)
  weighed key' entry' hfind := by
    have hinserted : (lru.entries.insert key _).find? key' = some entry' := hfind
    rw [SortedMap.find?_insert_eq] at hinserted
    split at hinserted
    · rename_i hkey
      cases hinserted
      rw [hkey]
      rfl
    · exact h.weighed key' entry' hinserted
  total := by
    show lru.totalWeight + lru.weigh key value = weightOf (lru.entries.insert key _)
    rw [weightOf_insert, SortedMap.erase_eq_self hnone, h.total, Nat.add_comm]

/-- What dropping the entries used longest ago does: the entries that stay are among the old ones,
and nothing happens unless an eviction is counted. -/
structure Shrinks (lru lru' : Lru κ α) : Prop where
  valid : lru'.Valid
  settings : SameSettings lru lru'
  among : ∀ key entry, lru'.entries.find? key = some entry → lru.entries.find? key = some entry
  evictions : lru.evictions ≤ lru'.evictions
  unchanged : lru'.evictions = lru.evictions → lru' = lru

omit [Std.TransOrd κ] [Std.LawfulEqOrd κ] [DecidableEq κ] in
/-- A cache that fits can stay as it is. -/
theorem Shrinks.refl (h : lru.Valid) : Shrinks lru lru :=
  ⟨h, .refl lru, fun _ _ hfind => hfind, Nat.le_refl _, fun _ => rfl⟩

omit [Std.TransOrd κ] in
/-- One entry is dropped before the others. -/
theorem Shrinks.of_expire {lru' : Lru κ α} (h : Shrinks (lru.expire key entry) lru') :
    Shrinks lru lru' where
  valid := h.valid
  settings := ⟨h.settings.weigh, h.settings.maxWeight, h.settings.expireAfter⟩
  among _ _ hfind := (SortedMap.find?_erase_eq_some.1 (h.among _ _ hfind)).2
  evictions := Nat.le_trans (Nat.le_succ _) h.evictions
  unchanged hsame := by
    have hmore : lru.evictions + 1 ≤ lru'.evictions := h.evictions
    omega

/-- The entry of a key was used last. -/
def IsNewest (lru : Lru κ α) (key : κ) (entry : Entry α) : Prop :=
  lru.entries.find? key = some entry ∧
    ∀ key' entry', lru.entries.find? key' = some entry' → entry'.tick ≤ entry.tick

omit [Std.TransOrd κ] in
/-- It stays so when the entry of another key is dropped. -/
theorem IsNewest.expire (h : lru.IsNewest key entry) {other : κ} (hne : key ≠ other)
    (entry' : Entry α) : (lru.expire other entry').IsNewest key entry :=
  ⟨SortedMap.find?_erase_eq_some.2 ⟨hne, h.1⟩,
    fun k e hk => h.2 k e (SortedMap.find?_erase_eq_some.1 hk).2⟩

omit [Std.TransOrd κ] [Std.LawfulEqOrd κ] [DecidableEq κ] in
theorem evict_eq_expire (h : lru.Indexed) {tick : Nat} (htick : lru.recency.find? tick = some key) :
    ∃ entry, lru.entries.find? key = some entry ∧ entry.tick = tick ∧
      lru.evict tick key = lru.expire key entry := by
  obtain ⟨entry, hentry, rfl⟩ := (h.listed tick key).1 htick
  refine ⟨entry, hentry, rfl, ?_⟩
  rw [evict, hentry]
  rfl

omit [Std.TransOrd κ] [Std.LawfulEqOrd κ] [DecidableEq κ] in
theorem entries_nil_of_recency_nil (h : lru.Indexed) (hnil : lru.recency.entries = []) (key : κ) :
    lru.entries.find? key = none := by
  cases hentry : lru.entries.find? key with
  | none => rfl
  | some entry =>
    have hlisted := (h.listed entry.tick key).2 ⟨entry, hentry, rfl⟩
    rw [SortedMap.find?, hnil] at hlisted
    cases hlisted

omit [Std.TransOrd κ] [Std.LawfulEqOrd κ] [DecidableEq κ] in
/-- The first entry of the index is the one used longest ago. -/
theorem oldest_le {tick tick' : Nat} {key key' : κ} {index : List (Nat × κ)}
    (hindex : lru.recency.entries = (tick, key) :: index)
    (h : lru.recency.find? tick' = some key') : tick' = tick ∧ key' = key ∨ tick < tick' := by
  have hascending := hindex ▸ lru.recency.ascending
  have hmem := SortedMap.find?_eq_some_iff_mem.1 h
  rw [hindex] at hmem
  rcases List.mem_cons.1 hmem with heq | hmem
  · cases heq
    exact .inl ⟨rfl, rfl⟩
  · exact .inr (Nat.compare_eq_lt.1 ((List.pairwise_cons.1 hascending).1 _ hmem))

/-- An entry that was used last, and longest ago as well, is the only one. -/
theorem IsNewest.total_eq (hnewest : lru.IsNewest key entry) (h : lru.Indexed)
    {index : List (Nat × κ)} (hindex : lru.recency.entries = (entry.tick, key) :: index) :
    lru.totalWeight = entry.weight := by
  have hsingle (k : κ) : (lru.entries.erase key).find? k = none := by
    refine Option.eq_none_iff_forall_ne_some.2 fun e hk => ?_
    obtain ⟨hne, hk⟩ := SortedMap.find?_erase_eq_some.1 hk
    have hle := hnewest.2 k e hk
    rcases oldest_le hindex ((h.listed e.tick k).2 ⟨e, hk, rfl⟩) with ⟨-, hkey⟩ | hlt
    · exact hne hkey
    · omega
  rw [h.total, weightOf_erase hnewest.1, weightOf_eq_zero hsingle, Nat.add_zero]

/-- Dropping the first entry of the index, the one used longest ago, leaves the rest of it. -/
theorem evict_oldest (h : lru.Indexed) {tick : Nat} {index : List (Nat × κ)}
    (hindex : lru.recency.entries = (tick, key) :: index) :
    ∃ entry, lru.entries.find? key = some entry ∧ entry.tick = tick ∧
      lru.evict tick key = lru.expire key entry ∧ (lru.expire key entry).Indexed ∧
        (lru.expire key entry).recency.entries = index := by
  have hmem : (tick, key) ∈ lru.recency.entries := hindex ▸ List.mem_cons_self
  obtain ⟨entry, hentry, htick, hevict⟩ :=
    evict_eq_expire h (SortedMap.find?_eq_some_iff_mem.2 hmem)
  refine ⟨entry, hentry, htick, hevict, (indexed_detach h hentry).withEvictions _, ?_⟩
  show Entries.erase entry.tick lru.recency.entries = index
  rw [htick, hindex]
  exact Entries.erase_cons_self (hindex ▸ lru.recency.ascending)

/-- By induction on the index, from the entry used longest ago. -/
theorem evictUntilFits_spec (index : List (Nat × κ)) (h : lru.Indexed)
    (hindex : lru.recency.entries = index) :
    Shrinks lru (lru.evictUntilFits index) ∧
      ∀ key entry, lru.IsNewest key entry → entry.weight ≤ lru.maxWeight →
        (lru.evictUntilFits index).entries.find? key = some entry := by
  induction index generalizing lru with
  | nil =>
    have hnone := entries_nil_of_recency_nil h hindex
    have hbounded : lru.totalWeight ≤ lru.maxWeight := by
      rw [h.total, weightOf_eq_zero hnone]
      exact Nat.zero_le _
    exact ⟨.refl ⟨h, hbounded⟩, fun _ _ hnewest _ => hnewest.1⟩
  | cons oldest index ih =>
    obtain ⟨tick, key⟩ := oldest
    rw [evictUntilFits]
    split
    · rename_i hfits
      exact ⟨.refl ⟨h, of_decide_eq_true hfits⟩, fun _ _ hnewest _ => hnewest.1⟩
    · rename_i hheavy
      obtain ⟨entry, hentry, rfl, hevict, hexpired, hrest⟩ := evict_oldest h hindex
      obtain ⟨hshrinks, hkept⟩ := ih hexpired hrest
      rw [hevict]
      refine ⟨hshrinks.of_expire, fun key' entry' hnewest hweight => ?_⟩
      refine hkept key' entry' (hnewest.expire ?_ entry) hweight
      -- an entry that is the newest and the oldest would fit
      rintro rfl
      cases hentry.symm.trans hnewest.1
      exact hheavy (decide_eq_true ((hnewest.total_eq h hindex).symm ▸ hweight))

end RecordCache.Lru
