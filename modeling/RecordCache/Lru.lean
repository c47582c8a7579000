import RecordCache.Instant
import RecordCache.SortedMap
import RecordCache.Stats

/-!
# A cache bounded by weight

A cache holds entries up to a total weight. An insertion that makes it too heavy drops the entries
used longest ago until the rest fits. An entry also goes when it is touched at an age, since it was
written, of `expireAfter` or more.

Each use of an entry draws a new tick, and the index `recency` lists the keys in order of tick.

* `Lru.get`, `peek`: read an entry, with and without counting as a use;
* `Lru.insert`, `remove`, `removeWhere`, `clear`: change the entries;
* `Lru.snapshot`: the live entries from the one used longest ago to the one used last;
* `Lru.size`: the number of entries, which no removal raises;
* `Lru.stats`: the counters. Evictions count what goes for its age or for want of room.
-/

namespace RecordCache

universe u v

/-- An entry of a cache. -/
structure Lru.Entry (α : Type v) where
  value : α
  weight : Nat
  tick : Nat
  writtenAt : Instant

/-- A cache bounded by weight. -/
structure Lru (κ : Type u) (α : Type v) [Ord κ] where
  weigh : κ → α → Nat
  maxWeight : Nat
  expireAfter : Option Duration
  entries : SortedMap κ (Lru.Entry α)
  recency : SortedMap Nat κ
  nextTick : Nat
  totalWeight : Nat
  hits : Nat
  misses : Nat
  evictions : Nat

namespace Lru

variable {κ : Type u} {α : Type v} [Ord κ]

/-- A cache without entries. -/
def new (maxWeight : Nat) (weigh : κ → α → Nat) (expireAfter : Option Duration) : Lru κ α where
  weigh := weigh
  maxWeight := maxWeight
  expireAfter := expireAfter
  entries := ∅
  recency := ∅
  nextTick := 0
  totalWeight := 0
  hits := 0
  misses := 0
  evictions := 0

/-- Whether an entry has reached the age of expiry. -/
def isExpired (lru : Lru κ α) (now : Instant) (entry : Entry α) : Bool :=
  match lru.expireAfter with
  | some limit => limit.nanoseconds ≤ (now.since entry.writtenAt).nanoseconds
  | none => false

/-- Whether the entries fit. -/
def fits (lru : Lru κ α) : Bool := lru.totalWeight ≤ lru.maxWeight

/-- Drops an entry from the entries, the index and the total. -/
def detach (lru : Lru κ α) (key : κ) (entry : Entry α) : Lru κ α :=
  { lru with
    entries := lru.entries.erase key
    recency := lru.recency.erase entry.tick
    totalWeight := lru.totalWeight - entry.weight }

/-- Drops an entry and counts an eviction. -/
def expire (lru : Lru κ α) (key : κ) (entry : Entry α) : Lru κ α :=
  { lru.detach key entry with evictions := lru.evictions + 1 }

/-- Drops the entry that the index lists under a tick, and counts an eviction. -/
def evict (lru : Lru κ α) (tick : Nat) (key : κ) : Lru κ α :=
  match lru.entries.find? key with
  | some entry =>
    { lru with
      entries := lru.entries.erase key
      recency := lru.recency.erase tick
      totalWeight := lru.totalWeight - entry.weight
      evictions := lru.evictions + 1 }
  | none => { lru with recency := lru.recency.erase tick }

/-- Drops entries in the order of the list until the rest fits. -/
def evictUntilFits (lru : Lru κ α) : List (Nat × κ) → Lru κ α
  | [] => lru
  | (tick, key) :: rest => if lru.fits then lru else evictUntilFits (lru.evict tick key) rest

/-- Drops the entries used longest ago until the rest fits. -/
def shrink (lru : Lru κ α) : Lru κ α := lru.evictUntilFits lru.recency.entries

/-- The value of a live entry, without counting as a use. -/
def peek (lru : Lru κ α) (now : Instant) (key : κ) : Option α :=
  match lru.entries.find? key with
  | some entry => if lru.isExpired now entry then none else some entry.value
  | none => none

/-- Drops every entry; the counters stay. -/
def clear (lru : Lru κ α) : Lru κ α :=
  { lru with entries := ∅, recency := ∅, totalWeight := 0 }

/-- Drops the entry of a key. The value is that of a live entry; dropping an expired one is an
eviction. -/
def remove (lru : Lru κ α) (now : Instant) (key : κ) : Option α × Lru κ α :=
  match lru.entries.find? key with
  | some entry =>
    if lru.isExpired now entry then (none, lru.expire key entry)
    else (some entry.value, lru.detach key entry)
  | none => (none, lru)

/-- Drops every live entry that `matching` accepts, and every expired one; the pairs dropped are
the live ones. -/
def removeWhere (lru : Lru κ α) (now : Instant) (matching : κ → α → Bool) :
    List (κ × α) × Lru κ α :=
  let expired := lru.entries.entries.filter fun entry => lru.isExpired now entry.2
  let matched := lru.entries.entries.filter fun entry =>
    !lru.isExpired now entry.2 && matching entry.1 entry.2.value
  let swept := expired.foldl (fun lru entry => lru.expire entry.1 entry.2) lru
  (matched.map fun entry => (entry.1, entry.2.value),
    matched.foldl (fun lru entry => lru.detach entry.1 entry.2) swept)

/-- The live entries from the one used longest ago to the one used last. -/
def snapshot (lru : Lru κ α) (now : Instant) : List (κ × α) :=
  lru.recency.values.filterMap fun key => (lru.peek now key).map fun value => (key, value)

/-- The number of entries; expired ones count until they are touched. -/
def size (lru : Lru κ α) : Nat := lru.entries.size

theorem size_expire (lru : Lru κ α) (key : κ) (entry : Entry α) :
    (lru.expire key entry).size ≤ lru.size :=
  List.length_filter_le _ _

theorem size_detach_lt (lru : Lru κ α) (key : κ) (entry : Entry α)
    (h : lru.entries.find? key = some entry) : (lru.detach key entry).size < lru.size := by
  have hlt : ∀ entries : List (κ × Entry α), Entries.find? key entries = some entry →
      (Entries.erase key entries).length < entries.length := by
    intro entries
    induction entries with
    | nil => simp [Entries.find?]
    | cons head rest ih =>
      intro hfind
      have hle : (Entries.erase key rest).length ≤ rest.length := List.length_filter_le _ _
      unfold Entries.find? at hfind
      split at hfind
      · rename_i hc
        simpa [Entries.erase, hc] using Nat.lt_succ_of_le hle
      · rename_i hc
        simpa [Entries.erase, hc] using ih hfind
  exact hlt _ h

theorem size_remove_none (lru lru' : Lru κ α) (now : Instant) (key : κ)
    (h : lru.remove now key = (none, lru')) : lru'.size ≤ lru.size := by
  unfold remove at h
  split at h
  · split at h
    · cases h; exact size_expire _ _ _
    · cases h
  · cases h; exact Nat.le_refl _

theorem size_remove_some (lru lru' : Lru κ α) (now : Instant) (key : κ) (value : α)
    (h : lru.remove now key = (some value, lru')) : lru'.size < lru.size := by
  unfold remove at h
  split at h
  · split at h
    · cases h
    · rename_i entry hfind hexp
      cases h
      exact size_detach_lt lru key entry hfind
  · cases h

/-- The counters. -/
def stats (lru : Lru κ α) : Stats where
  hits := lru.hits
  misses := lru.misses
  entryCount := lru.size
  memoryBytes := lru.totalWeight
  evictions := lru.evictions

section Writes

variable [Std.TransOrd κ] [Std.LawfulEqOrd κ]

/-- Reads an entry, which makes it the one used last. -/
def get (lru : Lru κ α) (now : Instant) (key : κ) : Option α × Lru κ α :=
  match lru.entries.find? key with
  | some entry =>
    if lru.isExpired now entry then
      (none, { lru.expire key entry with misses := lru.misses + 1 })
    else
      (some entry.value,
        { lru with
          entries := lru.entries.insert key { entry with tick := lru.nextTick }
          recency := (lru.recency.erase entry.tick).insert lru.nextTick key
          nextTick := lru.nextTick + 1
          hits := lru.hits + 1 })
  | none => (none, { lru with misses := lru.misses + 1 })

/-- Adds an entry as the one used last, without regard to the total weight. -/
def attach (lru : Lru κ α) (now : Instant) (key : κ) (value : α) : Lru κ α :=
  let weight := lru.weigh key value
  { lru with
    entries := lru.entries.insert key ⟨value, weight, lru.nextTick, now⟩
    recency := lru.recency.insert lru.nextTick key
    nextTick := lru.nextTick + 1
    totalWeight := lru.totalWeight + weight }

/-- Writes an entry in place of the one that the key had, and drops entries until the rest fits.
The value is that of the live entry replaced. -/
def insert (lru : Lru κ α) (now : Instant) (key : κ) (value : α) : Option α × Lru κ α :=
  let (replaced, lru) := lru.remove now key
  (replaced, (lru.attach now key value).shrink)

end Writes

end Lru
end RecordCache
