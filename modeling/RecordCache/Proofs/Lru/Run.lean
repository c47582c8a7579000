import RecordCache.Proofs.Lru.Operations

/-!
# Runs of a cache bounded by weight

A run is a list of calls, each at a moment of its own; moments are not asked to follow each other,
so runs by any clock are among them. In every run the state stays valid, and the arithmetic of the
total is exact: no weight is taken off a total that is less, and room is always made before the
entries run out.

* `Lru.Call`, `Lru.Answer`, `Lru.call`, `Lru.after`: calls as data, and what a run leaves;
* `Lru.call?`, `Lru.after?` are the same with every subtraction checked: none as soon as one goes
  below zero, or as the entries run out while the rest is still too heavy;
* `Lru.after_induction`: what every call keeps, a run keeps;
* `Lru.after_valid`: in every run nothing is refused, and the state that is left is valid.
-/

namespace RecordCache.Lru

universe u v

/-- A call of a cache. -/
inductive Call (κ : Type u) (α : Type v)
  | get (key : κ)
  | peek (key : κ)
  | insert (key : κ) (value : α)
  | remove (key : κ)
  | removeWhere (matching : κ → α → Bool)
  | clear

/-- What a call gives. -/
inductive Answer (κ : Type u) (α : Type v)
  | value (found : Option α)
  | removed (pairs : List (κ × α))
  | done

variable {κ : Type u} {α : Type v} [Ord κ]

/-! ### Checked subtractions -/

/-- Drops an entry, unless the total is less than its weight. -/
def detach? (lru : Lru κ α) (key : κ) (entry : Entry α) : Option (Lru κ α) :=
  if entry.weight ≤ lru.totalWeight then some (lru.detach key entry) else none

/-- Drops an entry and counts an eviction, unless the total is less than its weight. -/
def expire? (lru : Lru κ α) (key : κ) (entry : Entry α) : Option (Lru κ α) :=
  (lru.detach? key entry).map fun left => { left with evictions := lru.evictions + 1 }

/-- Drops the entry that the index lists under a tick, unless the total is less than its weight. -/
def evict? (lru : Lru κ α) (tick : Nat) (key : κ) : Option (Lru κ α) :=
  match lru.entries.find? key with
  | some entry => if entry.weight ≤ lru.totalWeight then some (lru.evict tick key) else none
  | none => some (lru.evict tick key)

/-- Drops entries in the order of the list until the rest fits; none when they run out before. -/
def evictUntilFits? (lru : Lru κ α) : List (Nat × κ) → Option (Lru κ α)
  | [] => if lru.fits then some lru else none
  | (tick, key) :: rest =>
    if lru.fits then some lru
    else (lru.evict? tick key).bind fun lru => evictUntilFits? lru rest

/-- `Lru.remove` with its subtraction checked. -/
def remove? (lru : Lru κ α) (now : Instant) (key : κ) : Option (Option α × Lru κ α) :=
  match lru.entries.find? key with
  | some entry =>
    if lru.isExpired now entry then (lru.expire? key entry).map fun left => (none, left)
    else (lru.detach? key entry).map fun left => (some entry.value, left)
  | none => some (none, lru)

/-- `Lru.removeWhere` with its subtractions checked. -/
def removeWhere? (lru : Lru κ α) (now : Instant) (matching : κ → α → Bool) :
    Option (List (κ × α) × Lru κ α) := do
  let expired := lru.entries.entries.filter fun entry => lru.isExpired now entry.2
  let matched := lru.entries.entries.filter fun entry =>
    !lru.isExpired now entry.2 && matching entry.1 entry.2.value
  let swept ← expired.foldlM (fun lru entry => lru.expire? entry.1 entry.2) lru
  let left ← matched.foldlM (fun lru entry => lru.detach? entry.1 entry.2) swept
  return (matched.map fun entry => (entry.1, entry.2.value), left)

variable [Std.TransOrd κ] [Std.LawfulEqOrd κ]

/-- `Lru.get` with its subtraction checked. -/
def get? (lru : Lru κ α) (now : Instant) (key : κ) : Option (Option α × Lru κ α) :=
  match lru.entries.find? key with
  | some entry =>
    if lru.isExpired now entry then
      (lru.expire? key entry).map fun left => (none, { left with misses := lru.misses + 1 })
    else some (lru.get now key)
  | none => some (lru.get now key)

/-- `Lru.insert` with its subtractions checked. -/
def insert? (lru : Lru κ α) (now : Instant) (key : κ) (value : α) :
    Option (Option α × Lru κ α) := do
  let (replaced, lru) ← lru.remove? now key
  let lru := lru.attach now key value
  let lru ← lru.evictUntilFits? lru.recency.entries
  return (replaced, lru)

/-! ### Calls and runs -/

/-- Carries out a call. -/
def call (lru : Lru κ α) (now : Instant) : Call κ α → Answer κ α × Lru κ α
  | .get key => (lru.get now key).map .value id
  | .peek key => (.value (lru.peek now key), lru)
  | .insert key value => (lru.insert now key value).map .value id
  | .remove key => (lru.remove now key).map .value id
  | .removeWhere matching => (lru.removeWhere now matching).map .removed id
  | .clear => (.done, lru.clear)

/-- Carries out a call with every subtraction checked. -/
def call? (lru : Lru κ α) (now : Instant) : Call κ α → Option (Answer κ α × Lru κ α)
  | .get key => (lru.get? now key).map (Prod.map .value id)
  | .peek key => some (.value (lru.peek now key), lru)
  | .insert key value => (lru.insert? now key value).map (Prod.map .value id)
  | .remove key => (lru.remove? now key).map (Prod.map .value id)
  | .removeWhere matching => (lru.removeWhere? now matching).map (Prod.map .removed id)
  | .clear => some (.done, lru.clear)

/-- The state that calls leave behind. -/
def after (lru : Lru κ α) (calls : List (Instant × Call κ α)) : Lru κ α :=
  calls.foldl (fun lru timed => (lru.call timed.1 timed.2).2) lru

/-- The same with every subtraction checked. -/
def after? (lru : Lru κ α) (calls : List (Instant × Call κ α)) : Option (Lru κ α) :=
  calls.foldlM (fun lru timed => (lru.call? timed.1 timed.2).map Prod.snd) lru

/-- What every call keeps, a run keeps. -/
theorem after_induction {P : Lru κ α → Prop}
    (hstep : ∀ lru now call, P lru → P (lru.call now call).2) {lru : Lru κ α} (h : P lru)
    (calls : List (Instant × Call κ α)) : P (lru.after calls) :=
  List.foldlRecOn (motive := P) calls _ h fun lru hlru timed _ => hstep lru timed.1 timed.2 hlru

variable [DecidableEq κ] {lru : Lru κ α} {key : κ} {entry : Entry α}

/-! ### Nothing is refused -/

/-- The total covers the weight of every entry. -/
theorem Indexed.weight_le_total (h : lru.Indexed) (hentry : lru.entries.find? key = some entry) :
    entry.weight ≤ lru.totalWeight := by
  rw [h.total, weightOf_erase hentry]
  exact Nat.le_add_right _ _

theorem detach?_eq (h : lru.Indexed) (hentry : lru.entries.find? key = some entry) :
    lru.detach? key entry = some (lru.detach key entry) :=
  if_pos (h.weight_le_total hentry)

theorem expire?_eq (h : lru.Indexed) (hentry : lru.entries.find? key = some entry) :
    lru.expire? key entry = some (lru.expire key entry) := by
  rw [expire?, detach?_eq h hentry]
  rfl

/-- By induction on the index: when it is used up there is no entry left, so the rest fits. -/
theorem evictUntilFits?_eq (index : List (Nat × κ)) (h : lru.Indexed)
    (hindex : lru.recency.entries = index) :
    lru.evictUntilFits? index = some (lru.evictUntilFits index) := by
  induction index generalizing lru with
  | nil =>
    have hfits : lru.fits = true := by
      have hbounded := (evictUntilFits_spec [] h hindex).1.valid.bounded
      exact decide_eq_true hbounded
    rw [evictUntilFits?, evictUntilFits, if_pos hfits]
  | cons oldest index ih =>
    obtain ⟨tick, key⟩ := oldest
    obtain ⟨entry, hentry, -, hevict, hindexed, hrest⟩ := evict_oldest h hindex
    rw [evictUntilFits?, evictUntilFits]
    split
    · rfl
    · have hevict? : lru.evict? tick key = some (lru.evict tick key) := by
        rw [evict?, hentry]
        exact if_pos (h.weight_le_total hentry)
      rw [hevict?, hevict]
      exact ih hindexed hrest

theorem remove?_eq (h : lru.Indexed) (now : Instant) (key : κ) :
    lru.remove? now key = some (lru.remove now key) := by
  rw [remove?, remove]
  cases hentry : lru.entries.find? key with
  | none => rfl
  | some entry =>
    dsimp only
    split
    · rw [expire?_eq h hentry]; rfl
    · rw [detach?_eq h hentry]; rfl

theorem get?_eq (h : lru.Indexed) (now : Instant) (key : κ) :
    lru.get? now key = some (lru.get now key) := by
  rw [get?, get]
  cases hentry : lru.entries.find? key with
  | none => rfl
  | some entry =>
    dsimp only
    split
    · rw [expire?_eq h hentry]; rfl
    · rfl

theorem insert?_eq (h : lru.Valid) (now : Instant) (key : κ) (value : α) :
    lru.insert? now key value = some (lru.insert now key value) := by
  have hattached := indexed_attach (valid_remove h now key).toIndexed
    (find?_remove_self lru now key) now value
  rw [insert?, remove?_eq h.toIndexed now key, insert]
  simp only [Option.bind_eq_bind, Option.bind_some, evictUntilFits?_eq _ hattached rfl]
  rfl

omit [Std.TransOrd κ] in
/-- Entries that are there are dropped one by one. -/
theorem foldlM_drop_eq {drop? : Lru κ α → κ → Entry α → Option (Lru κ α)}
    {drop : Lru κ α → κ → Entry α → Lru κ α}
    (hdrop : ∀ {lru key entry}, lru.Valid → lru.entries.find? key = some entry →
      drop? lru key entry = some (drop lru key entry) ∧ (drop lru key entry).Valid ∧
        (drop lru key entry).entries = lru.entries.erase key)
    (h : lru.Valid) {doomed : List (κ × Entry α)} (hnodup : (doomed.map Prod.fst).Nodup)
    (hdoomed : ∀ pair ∈ doomed, lru.entries.find? pair.1 = some pair.2) :
    doomed.foldlM (fun lru pair => drop? lru pair.1 pair.2) lru =
      some (doomed.foldl (fun lru pair => drop lru pair.1 pair.2) lru) := by
  induction doomed generalizing lru with
  | nil => rfl
  | cons pair doomed ih =>
    obtain ⟨hpair, hrest⟩ := List.forall_mem_cons.1 hdoomed
    obtain ⟨hsome, hvalid, hentries⟩ := hdrop h hpair
    rw [List.map_cons, List.nodup_cons] at hnodup
    rw [List.foldlM_cons, hsome, List.foldl_cons]
    -- the others are under other keys, so they are still there
    refine ih hvalid hnodup.2 fun other hother => ?_
    have hkey : other.1 ≠ pair.1 := fun hkey => hnodup.1 (hkey ▸ List.mem_map_of_mem hother)
    rw [hentries, SortedMap.find?_erase, if_neg hkey, hrest other hother]

theorem removeWhere?_eq (h : lru.Valid) (now : Instant) (matching : κ → α → Bool) :
    lru.removeWhere? now matching = some (lru.removeWhere now matching) := by
  let expired := lru.entries.filter fun _ entry => lru.isExpired now entry
  let matched := lru.entries.filter fun k entry =>
    !lru.isExpired now entry && matching k entry.value
  have hexpired : expired.entries.foldlM (fun lru pair => lru.expire? pair.1 pair.2) lru =
      some (lru.sweep now) :=
    foldlM_drop_eq (fun hvalid hentry => ⟨expire?_eq hvalid.toIndexed hentry,
      valid_expire hvalid hentry, rfl⟩) h expired.nodup_keys fun pair hpair =>
        SortedMap.find?_eq_some_iff_mem.2 (List.mem_filter.1 hpair).1
  have hmatched : matched.entries.foldlM (fun lru pair => lru.detach? pair.1 pair.2)
      (lru.sweep now) = some (lru.removeWhere now matching).2 :=
    foldlM_drop_eq (fun hvalid hentry => ⟨detach?_eq hvalid.toIndexed hentry,
      valid_detach hvalid hentry, rfl⟩) (sweep_spec h now).1 matched.nodup_keys fun pair hpair =>
        find?_sweep_of_matched h _ (SortedMap.find?_eq_some_iff_mem.2 hpair)
  rw [removeWhere?]
  refine Option.bind_eq_some_iff.2 ⟨_, hexpired, Option.bind_eq_some_iff.2 ⟨_, hmatched, rfl⟩⟩

/-- No subtraction of a call is refused. -/
theorem call?_eq (h : lru.Valid) (now : Instant) (call : Call κ α) :
    lru.call? now call = some (lru.call now call) := by
  cases call with
  | get key => simp [Lru.call?, Lru.call, get?_eq h.toIndexed]
  | peek key => rfl
  | insert key value => simp [Lru.call?, Lru.call, insert?_eq h]
  | remove key => simp [Lru.call?, Lru.call, remove?_eq h.toIndexed]
  | removeWhere matching => simp [Lru.call?, Lru.call, removeWhere?_eq h]
  | clear => rfl

/-- A call leaves a valid state with the settings as they were. -/
theorem valid_call (h : lru.Valid) (now : Instant) (call : Call κ α) :
    (lru.call now call).2.Valid ∧ SameSettings lru (lru.call now call).2 := by
  cases call with
  | get key => exact ⟨valid_get h now key, settings_get lru now key⟩
  | peek key => exact ⟨h, .refl lru⟩
  | insert key value => exact ⟨valid_insert h now key value, settings_insert h now key value⟩
  | remove key => exact ⟨valid_remove h now key, settings_remove lru now key⟩
  | removeWhere matching =>
    exact ⟨(removeWhere_spec h now matching).1, settings_removeWhere lru now matching⟩
  | clear => exact ⟨valid_clear, ⟨rfl, rfl, rfl⟩⟩

theorem valid_run (h : lru.Valid) (calls : List (Instant × Call κ α)) :
    (lru.after calls).Valid ∧ SameSettings lru (lru.after calls) := by
  refine after_induction (P := fun left => left.Valid ∧ SameSettings lru left) ?_
    ⟨h, .refl lru⟩ calls
  rintro left now call ⟨hleft, hsame⟩
  obtain ⟨hvalid, hsettings⟩ := valid_call hleft now call
  exact ⟨hvalid, hsame.trans hsettings⟩

/-- By induction along the run, each call of which begins in a valid state. -/
theorem after?_eq (h : lru.Valid) (calls : List (Instant × Call κ α)) :
    lru.after? calls = some (lru.after calls) := by
  induction calls generalizing lru with
  | nil => rfl
  | cons timed calls ih =>
    rw [after?, List.foldlM_cons, call?_eq h]
    exact ih (valid_call h timed.1 timed.2).1

/-- **The budget.** However a cache is weighed, bounded and used, after every call the index lists
each entry under its tick and nothing else, ticks to come are larger than all drawn so far, each
entry weighs what its value weighs, and the total is their sum and within the bound; no weight was
taken off a total that is less, and no insertion ran out of entries before the rest fitted. -/
theorem after_valid (maxWeight : Nat) (weigh : κ → α → Nat) (expireAfter : Option Duration)
    (calls : List (Instant × Call κ α)) :
    ((new maxWeight weigh expireAfter).after calls).Valid ∧
      SameSettings (new maxWeight weigh expireAfter)
        ((new maxWeight weigh expireAfter).after calls) ∧
      (new maxWeight weigh expireAfter).after? calls =
        some ((new maxWeight weigh expireAfter).after calls) := by
  have hnew := valid_new maxWeight weigh expireAfter
  obtain ⟨hvalid, hsettings⟩ := valid_run hnew calls
  exact ⟨hvalid, hsettings, after?_eq hnew calls⟩

/-- A cache for a weight of 6 drops one entry for want of room and two for their age. -/
theorem after_valid_small_cache :
    let lru : Lru Nat Nat := new 6 (fun _ value => value) (some ⟨10⟩)
    let calls : List (Instant × Call Nat Nat) :=
      [(⟨0⟩, .insert 1 3), (⟨1⟩, .insert 2 2), (⟨2⟩, .get 1), (⟨3⟩, .insert 3 3),
        (⟨13⟩, .get 1), (⟨13⟩, .insert 3 4)]
    ((lru.after calls).Valid ∧ SameSettings lru (lru.after calls) ∧
      lru.after? calls = some (lru.after calls)) ∧
      (lru.after calls).totalWeight = 4 ∧ (lru.after calls).evictions = 3 :=
  ⟨after_valid 6 _ _ _, by decide, by decide⟩

end RecordCache.Lru
