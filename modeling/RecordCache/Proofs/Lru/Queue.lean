import Mathlib.Data.List.Infix
import Mathlib.Data.List.Induction
import RecordCache.Proofs.Lru.Run

/-!
# A cache as a list

The plainest cache of all keeps a list of items, from the one used longest ago to the one used last.
A read moves its item to the end, and so does a write; what does not fit any more is cut off at the
front.

* `Queue` and its operations, which are those of `Lru` on the list;
* `Queue.fitting` is the longest end of a list that fits;
* `Queue.lastWritten_of_mem`, `exists_of_peek`: a value that is read was the last one written under
  its key, and it was written less than the age of expiry ago.
-/

namespace RecordCache

universe u v

/-- What a queue holds under a key. -/
structure Queue.Item (κ : Type u) (α : Type v) where
  key : κ
  value : α
  weight : Nat
  writtenAt : Instant

/-- A cache as the list of its items, from the one used longest ago to the one used last. -/
@[ext]
structure Queue (κ : Type u) (α : Type v) where
  weigh : κ → α → Nat
  maxWeight : Nat
  expireAfter : Option Duration
  items : List (Queue.Item κ α)
  hits : Nat
  misses : Nat
  evictions : Nat

namespace Queue

variable {κ : Type u} {α : Type v}

/-- A queue without items. -/
def new (maxWeight : Nat) (weigh : κ → α → Nat) (expireAfter : Option Duration) : Queue κ α where
  weigh := weigh
  maxWeight := maxWeight
  expireAfter := expireAfter
  items := []
  hits := 0
  misses := 0
  evictions := 0

/-- The weight of some items together. -/
def weightOf (items : List (Item κ α)) : Nat := (items.map Item.weight).sum

/-- The longest end of a list that weighs no more than the bound. -/
def fitting (maxWeight : Nat) (items : List (Item κ α)) : List (Item κ α) :=
  (items.tails.find? fun ending => weightOf ending ≤ maxWeight).getD []

/-- Whether an item is younger than the age of expiry. -/
def isLive (q : Queue κ α) (now : Instant) (item : Item κ α) : Bool :=
  match q.expireAfter with
  | some limit => (now.since item.writtenAt).nanoseconds < limit.nanoseconds
  | none => true

/-- Drops every item. -/
def clear (q : Queue κ α) : Queue κ α := { q with items := [] }

/-- Drops the live items that `matching` accepts, and the others that are not live, which are
evictions. -/
def removeWhere (q : Queue κ α) (now : Instant) (matching : κ → α → Bool) :
    List (κ × α) × Queue κ α :=
  let matched := q.items.filter fun item => q.isLive now item && matching item.key item.value
  (matched.map fun item => (item.key, item.value),
    { q with
      items := q.items.filter fun item => q.isLive now item && !matching item.key item.value
      evictions := q.evictions + q.items.countP fun item => !q.isLive now item })

/-- The live items in order. -/
def snapshot (q : Queue κ α) (now : Instant) : List (κ × α) :=
  (q.items.filter (q.isLive now)).map fun item => (item.key, item.value)

/-- The counters, the number of items and their weight. -/
def stats (q : Queue κ α) : Stats where
  hits := q.hits
  misses := q.misses
  entryCount := q.items.length
  memoryBytes := weightOf q.items
  evictions := q.evictions

variable [DecidableEq κ]

/-- The item of a key. -/
def item? (q : Queue κ α) (key : κ) : Option (Item κ α) := q.items.find? fun item => item.key = key

/-- The items of other keys. -/
def others (q : Queue κ α) (key : κ) : List (Item κ α) := q.items.filter fun item => item.key ≠ key

/-- The value of a live item. -/
def peek (q : Queue κ α) (now : Instant) (key : κ) : Option α :=
  ((q.item? key).filter (q.isLive now)).map Item.value

/-- Reads a live item, which moves to the end; any other is dropped, which is an eviction. -/
def get (q : Queue κ α) (now : Instant) (key : κ) : Option α × Queue κ α :=
  match q.item? key with
  | some item =>
    if q.isLive now item then
      (some item.value, { q with items := q.others key ++ [item], hits := q.hits + 1 })
    else
      (none, { q with
        items := q.others key, misses := q.misses + 1, evictions := q.evictions + 1 })
  | none => (none, { q with misses := q.misses + 1 })

/-- Drops the item of a key; one that is not live is an eviction. -/
def remove (q : Queue κ α) (now : Instant) (key : κ) : Option α × Queue κ α :=
  match q.item? key with
  | some item =>
    if q.isLive now item then (some item.value, { q with items := q.others key })
    else (none, { q with items := q.others key, evictions := q.evictions + 1 })
  | none => (none, q)

/-- Puts an item at the end in place of the one that the key had. Of the list the longest end that
fits is kept, and each item cut off is an eviction. -/
def insert (q : Queue κ α) (now : Instant) (key : κ) (value : α) : Option α × Queue κ α :=
  let (replaced, q) := q.remove now key
  let items := q.items ++ [⟨key, value, q.weigh key value, now⟩]
  let kept := fitting q.maxWeight items
  (replaced, { q with
    items := kept
    evictions := q.evictions + (items.length - kept.length) })

/-- Carries out a call. -/
def call (q : Queue κ α) (now : Instant) : Lru.Call κ α → Lru.Answer κ α × Queue κ α
  | .get key => (q.get now key).map .value id
  | .peek key => (.value (q.peek now key), q)
  | .insert key value => (q.insert now key value).map .value id
  | .remove key => (q.remove now key).map .value id
  | .removeWhere matching => (q.removeWhere now matching).map .removed id
  | .clear => (.done, q.clear)

/-- The answers to calls, each with the queue after the call. -/
def trace (q : Queue κ α) : List (Instant × Lru.Call κ α) → List (Lru.Answer κ α × Queue κ α)
  | [] => []
  | (now, call) :: rest => q.call now call :: trace (q.call now call).2 rest

/-- The queue that calls leave behind. -/
def after (q : Queue κ α) (calls : List (Instant × Lru.Call κ α)) : Queue κ α :=
  calls.foldl (fun q timed => (q.call timed.1 timed.2).2) q

/-! ### What is kept for want of room -/

omit [DecidableEq κ] in
theorem fitting_nil (maxWeight : Nat) : fitting maxWeight ([] : List (Item κ α)) = [] := by
  simp [fitting, weightOf]

omit [DecidableEq κ] in
/-- A list that does not fit loses its first item. -/
theorem fitting_cons (maxWeight : Nat) (item : Item κ α) (items : List (Item κ α)) :
    fitting maxWeight (item :: items) =
      if weightOf (item :: items) ≤ maxWeight then item :: items else fitting maxWeight items := by
  simp only [fitting, List.tails_cons, List.find?_cons]
  by_cases hfits : weightOf (item :: items) ≤ maxWeight <;> simp [hfits]

omit [DecidableEq κ] in
theorem fitting_suffix (maxWeight : Nat) (items : List (Item κ α)) :
    fitting maxWeight items <:+ items := by
  induction items with
  | nil => rw [fitting_nil]
  | cons item items ih =>
    rw [fitting_cons]
    split
    · exact List.suffix_refl _
    · exact ih.trans (List.suffix_cons _ _)

end Queue

/-! ### What is read was written -/

/-- The call writes or drops whatever is under a key. -/
def Lru.Call.Replaces {κ : Type u} {α : Type v} (key : κ) : Lru.Call κ α → Prop
  | .insert k _ => k = key
  | .remove k => k = key
  | .clear => True
  | _ => False

namespace Queue

variable {κ : Type u} {α : Type v} [DecidableEq κ]

/-- The last of some calls that replaced what was under the key of an item was the writing of the
item. -/
def LastWritten (calls : List (Instant × Lru.Call κ α)) (item : Item κ α) : Prop :=
  ∃ before later, calls = before ++ (item.writtenAt, .insert item.key item.value) :: later ∧
    ∀ timed ∈ later, ¬timed.2.Replaces item.key

theorem remove_items (q : Queue κ α) (now : Instant) (key : κ) :
    (q.remove now key).2.items = q.others key := by
  rw [remove]
  cases hitem : q.item? key with
  | none =>
    refine (List.filter_eq_self.2 fun item hmem => ?_).symm
    simpa using List.find?_eq_none.1 hitem item hmem
  | some item =>
    dsimp only
    split <;> rfl

/-- An item that a call leaves was there before and nothing replaced it, or the call wrote it. -/
theorem mem_call {q : Queue κ α} {now : Instant} {call : Lru.Call κ α} {item : Item κ α}
    (h : item ∈ (q.call now call).2.items) :
    (item ∈ q.items ∧ ¬call.Replaces item.key) ∨
      call = .insert item.key item.value ∧ item.writtenAt = now := by
  have hothers {key : κ} (hmem : item ∈ q.others key) : item ∈ q.items ∧ ¬key = item.key := by
    obtain ⟨hitem, hkey⟩ := List.mem_filter.1 hmem
    exact ⟨hitem, fun heq => by simp [heq] at hkey⟩
  cases call with
  | get key =>
    refine .inl ⟨?_, id⟩
    replace h : item ∈ (q.get now key).2.items := h
    rw [get] at h
    split at h
    · rename_i found hfound
      split at h
      · rcases List.mem_append.1 h with h | h
        · exact (hothers h).1
        · rw [List.mem_singleton.1 h]
          exact List.mem_of_find?_eq_some hfound
      · exact (hothers h).1
    · exact h
  | peek key => exact .inl ⟨h, id⟩
  | insert key value =>
    -- what is kept is an end of the list, so nothing else gets in
    have hmem := (fitting_suffix _ _).subset h
    rcases List.mem_append.1 hmem with hmem | hmem
    · exact .inl (hothers (remove_items q now key ▸ hmem))
    · rw [List.mem_singleton.1 hmem]
      exact .inr ⟨rfl, rfl⟩
  | remove key => exact .inl (hothers (remove_items q now key ▸ h))
  | removeWhere matching => exact .inl ⟨(List.mem_filter.1 h).1, id⟩
  | clear => cases h

/-- By induction along the calls: what the last call wrote was written last, and what it spared was
last written before. -/
theorem lastWritten_of_mem {q : Queue κ α} (hempty : q.items = [])
    {calls : List (Instant × Lru.Call κ α)} {item : Item κ α}
    (h : item ∈ (q.after calls).items) : LastWritten calls item := by
  induction calls using List.reverseRecOn generalizing item with
  | nil =>
    rw [after, List.foldl_nil, hempty] at h
    cases h
  | append_singleton calls timed ih =>
    rw [after, List.foldl_append] at h
    rcases mem_call h with ⟨hmem, hspared⟩ | ⟨hcall, hnow⟩
    · obtain ⟨before, later, rfl, hlater⟩ := ih hmem
      refine ⟨before, later ++ [timed], by simp, fun other hother => ?_⟩
      rcases List.mem_append.1 hother with hother | hother
      · exact hlater other hother
      · rw [List.mem_singleton.1 hother]
        exact hspared
    · refine ⟨calls, [], ?_, List.forall_mem_nil _⟩
      rw [← hcall, hnow]

/-- A value that is read is that of a live item. -/
theorem exists_of_peek {q : Queue κ α} {now : Instant} {key : κ} {value : α}
    (h : q.peek now key = some value) :
    ∃ item ∈ q.items, item.key = key ∧ item.value = value ∧ q.isLive now item = true := by
  obtain ⟨item, hitem, rfl⟩ := Option.map_eq_some_iff.1 h
  obtain ⟨hfind, hlive⟩ := Option.filter_eq_some_iff.1 hitem
  refine ⟨item, List.mem_of_find?_eq_some hfind, ?_, rfl, hlive⟩
  simpa using List.find?_some hfind

end Queue
end RecordCache
