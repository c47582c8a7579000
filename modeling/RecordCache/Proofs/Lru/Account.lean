import RecordCache.Proofs.Lru.Refinement

/-!
# The account of a cache

Whoever calls a cache can keep an account from the calls and their answers. The counters of the
cache agree with it: every entry that was written is still there, or has gone in one of the ways
that are counted, and in no two of them.

* `Account`, `Account.enter`, `Lru.account`: the account of a run;
* `Account.Balances`: what the counters are to show;
* `Queue.balances_call`: one call of a queue keeps the balance, and with `Lru.call_refines` so does
  one of a cache;
* `Lru.account_balances`: every run does.
-/

namespace RecordCache

universe u v

/-- What the calls of a run and their answers add up to. -/
structure Account where
  /-- The entries written. -/
  inserted : Nat
  /-- The writes that gave the value they replaced. -/
  replaced : Nat
  /-- The removals of a key that gave a value. -/
  removed : Nat
  /-- The pairs that removals by a condition gave. -/
  matched : Nat
  /-- The entries that there were when all were dropped. -/
  cleared : Nat
  /-- The reads that count as uses. -/
  reads : Nat
  /-- Those of them that gave a value. -/
  found : Nat
  deriving DecidableEq

namespace Account

/-- The account before any call. -/
def blank : Account := ⟨0, 0, 0, 0, 0, 0, 0⟩

/-- Enters a call with its answer, before which there were `size` entries. -/
def enter {κ : Type u} {α : Type v} (account : Account) (size : Nat) (call : Lru.Call κ α)
    (answer : Lru.Answer κ α) : Account :=
  match call, answer with
  | .get _, .value found =>
    { account with
      reads := account.reads + 1
      found := account.found + if found.isSome then 1 else 0 }
  | .insert _ _, .value replaced =>
    { account with
      inserted := account.inserted + 1
      replaced := account.replaced + if replaced.isSome then 1 else 0 }
  | .remove _, .value removed =>
    { account with removed := account.removed + if removed.isSome then 1 else 0 }
  | .removeWhere _, .removed pairs => { account with matched := account.matched + pairs.length }
  | .clear, _ => { account with cleared := account.cleared + size }
  | _, _ => account

/-- The counters agree with the account: each entry written is there, or was evicted, replaced,
removed or cleared, and each read hit or missed. -/
structure Balances (account : Account) (stats : Stats) : Prop where
  entries : account.inserted = stats.entryCount + stats.evictions + account.replaced +
    account.removed + account.matched + account.cleared
  reads : stats.hits + stats.misses = account.reads
  hits : stats.hits = account.found

variable {κ : Type u} {α : Type v}

/-- The order in which pairs are removed does not enter. -/
theorem enter_congr {answer answer' : Lru.Answer κ α} (h : answer.Alike answer')
    (account : Account) (size : Nat) (call : Lru.Call κ α) :
    account.enter size call answer = account.enter size call answer' := by
  cases h with
  | value found => rfl
  | removed hpairs => cases call <;> simp only [enter, hpairs.length_eq]
  | done => rfl

end Account

/-! ### One call -/

namespace Queue

variable {κ : Type u} {α : Type v} [DecidableEq κ] {q : Queue κ α} {account : Account}
  {now : Instant}

section Distinct

variable (hdistinct : (q.items.map Item.key).Nodup)

include hdistinct

/-- A key has one item. -/
theorem length_others {key : κ} {item : Item κ α} (hitem : q.item? key = some item) :
    (q.others key).length + 1 = q.items.length := by
  have hkey : item.key = key := by simpa using List.find?_some hitem
  have hmem : key ∈ q.items.map Item.key :=
    hkey ▸ List.mem_map_of_mem (List.mem_of_find?_eq_some hitem)
  have hone : q.items.countP (fun item => item.key = key) = 1 := by
    have hcount := List.count_eq_one_of_mem hdistinct hmem
    rw [List.count_eq_countP, List.countP_map] at hcount
    exact hcount
  have hothers : (q.others key).length = q.items.countP fun item => item.key ≠ key :=
    List.countP_eq_length_filter.symm
  have hsplit := q.items.length_eq_countP_add_countP fun item => item.key = key
  simp only [decide_eq_true_eq, ne_eq] at hsplit hothers
  omega

/-- A removal gives what it takes away, or counts it as an eviction. -/
theorem length_remove (now : Instant) (key : κ) :
    (q.remove now key).2.items.length + (q.remove now key).2.evictions +
        (if (q.remove now key).1.isSome then 1 else 0) = q.items.length + q.evictions ∧
      (q.remove now key).2.hits = q.hits ∧ (q.remove now key).2.misses = q.misses := by
  rw [remove]
  cases hitem : q.item? key with
  | none => exact ⟨rfl, rfl, rfl⟩
  | some item =>
    have hothers := length_others hdistinct hitem
    dsimp only
    split
    · exact ⟨by simp only [Option.isSome_some, if_true]; omega, rfl, rfl⟩
    · exact ⟨by simp only [Option.isSome_none, Bool.false_eq_true, if_false]; omega, rfl, rfl⟩

/-- So does a write with what it replaces, and it adds one item. -/
theorem length_insert (now : Instant) (key : κ) (value : α) :
    (q.insert now key value).2.items.length + (q.insert now key value).2.evictions +
        (if (q.insert now key value).1.isSome then 1 else 0) = q.items.length + q.evictions + 1 ∧
      (q.insert now key value).2.hits = q.hits ∧ (q.insert now key value).2.misses = q.misses := by
  obtain ⟨hlength, hhits, hmisses⟩ := length_remove hdistinct now key
  -- the queue gives up items at its front, so those counted as evicted are what it is short of
  have hkept := (fitting_suffix (q.remove now key).2.maxWeight ((q.remove now key).2.items ++
    [⟨key, value, (q.remove now key).2.weigh key value, now⟩])).length_le
  refine ⟨?_, hhits, hmisses⟩
  simp only [insert, List.length_append, List.length_singleton] at hkept ⊢
  omega

omit [DecidableEq κ] hdistinct in
/-- A removal by a condition gives the live items it takes away, and counts the others. -/
theorem length_removeWhere (q : Queue κ α) (now : Instant) (matching : κ → α → Bool) :
    (q.removeWhere now matching).2.items.length + (q.removeWhere now matching).2.evictions +
      (q.removeWhere now matching).1.length = q.items.length + q.evictions := by
  -- an item is expired, or live and matched, or live and left
  have hlive := q.items.length_eq_countP_add_countP (q.isLive now)
  have hmatched := (q.items.filter (q.isLive now)).length_eq_countP_add_countP
    fun item => matching item.key item.value
  rw [← List.countP_eq_length_filter, List.countP_filter, List.countP_filter] at hmatched
  simp only [removeWhere, List.length_map, ← List.countP_eq_length_filter]
  simp only [Bool.not_eq_true, Bool.decide_eq_false, Bool.and_comm] at hlive hmatched ⊢
  omega

/-- **One call.** A call of a queue keeps its counters in agreement with the account. -/
theorem balances_call (h : account.Balances q.stats) (now : Instant) (call : Lru.Call κ α) :
    (account.enter q.items.length call (q.call now call).1).Balances (q.call now call).2.stats := by
  obtain ⟨hentries, hreads, hhits⟩ := h
  simp only [stats] at hentries hreads hhits
  cases call with
  | get key =>
    rw [Queue.call, get]
    cases hitem : q.item? key with
    | none =>
      refine ⟨hentries, ?_, hhits⟩
      simp only [stats, Account.enter, Prod.map, id]
      omega
    | some item =>
      have hothers := length_others hdistinct hitem
      dsimp only
      split
      · refine ⟨?_, ?_, congrArg (· + 1) hhits⟩
        all_goals
          simp only [stats, Account.enter, Prod.map, id, List.length_append, List.length_singleton]
          omega
      · refine ⟨?_, ?_, hhits⟩
        all_goals
          simp only [stats, Account.enter, Prod.map, id]
          omega
  | peek key => exact ⟨hentries, hreads, hhits⟩
  | insert key value =>
    obtain ⟨hlength, hsame, hsame'⟩ := length_insert hdistinct now key value
    constructor <;> simp only [Queue.call, stats, Account.enter, Prod.map, id] <;> omega
  | remove key =>
    obtain ⟨hlength, hsame, hsame'⟩ := length_remove hdistinct now key
    constructor <;> simp only [Queue.call, stats, Account.enter, Prod.map, id] <;> omega
  | removeWhere matching =>
    have hlength := length_removeWhere q now matching
    refine ⟨?_, hreads, hhits⟩
    simp only [Queue.call, stats, Account.enter, Prod.map, id]
    omega
  | clear =>
    refine ⟨?_, hreads, hhits⟩
    simp only [Queue.call, stats, clear, Account.enter, List.length_nil]
    omega

end Distinct

end Queue

/-! ### Runs -/

namespace Lru

variable {κ : Type u} {α : Type v} [Ord κ] [Std.TransOrd κ] [Std.LawfulEqOrd κ]

/-- The account of a run that goes on from another. -/
def accountFrom (account : Account) (lru : Lru κ α) : List (Instant × Call κ α) → Account
  | [] => account
  | (now, call) :: rest =>
    accountFrom (account.enter lru.size call (lru.call now call).1) (lru.call now call).2 rest

/-- The account of a run. -/
def account (lru : Lru κ α) (calls : List (Instant × Call κ α)) : Account :=
  lru.accountFrom .blank calls

variable [DecidableEq κ] {lru : Lru κ α} {soFar : Account}

/-- A call of a cache keeps its counters in agreement with the account, as it does those of the
queue that the cache stands for. -/
theorem balances_call (hvalid : lru.Valid) (h : soFar.Balances lru.stats) (now : Instant)
    (call : Call κ α) :
    (soFar.enter lru.size call (lru.call now call).1).Balances (lru.call now call).2.stats := by
  obtain ⟨hanswer, hqueue⟩ := call_refines hvalid now call
  have hindexed := (valid_call hvalid now call).1.toIndexed
  -- the pairs that a removal gives may stand in another order than those of the queue
  rw [← stats_toQueue hvalid.toIndexed] at h
  rw [← stats_toQueue hindexed, hqueue, soFar.enter_congr hanswer,
    ← length_items hvalid.toIndexed]
  exact Queue.balances_call (nodup_items hvalid.toIndexed) h now call

/-- By induction along the run, each call of which begins in a valid state. -/
theorem balances_run (hvalid : lru.Valid) (h : soFar.Balances lru.stats)
    (calls : List (Instant × Call κ α)) :
    (lru.accountFrom soFar calls).Balances (lru.after calls).stats := by
  induction calls generalizing lru soFar with
  | nil => exact h
  | cons timed calls ih =>
    exact ih (valid_call hvalid timed.1 timed.2).1 (balances_call hvalid h timed.1 timed.2)

/-- **The account.** However a cache is weighed, bounded and used, after every call the entries
written are those there, those evicted, those that writes replaced, those that removals gave and
those cleared; and the reads are the hits, which gave a value, and the misses, which gave none. -/
theorem account_balances (maxWeight : Nat) (weigh : κ → α → Nat) (expireAfter : Option Duration)
    (calls : List (Instant × Call κ α)) :
    ((new maxWeight weigh expireAfter).account calls).Balances
      ((new maxWeight weigh expireAfter).after calls).stats :=
  balances_run (valid_new maxWeight weigh expireAfter) ⟨rfl, rfl, rfl⟩ calls

/-- Of eleven entries one is replaced, one removed, one matches a condition, one is cleared and one
is left. Four expire, each in another kind of call, and two do not fit. -/
theorem account_balances_every_way :
    let lru : Lru Nat Nat := new 6 (fun _ value => value) (some ⟨10⟩)
    let calls : List (Instant × Call Nat Nat) :=
      [(⟨0⟩, .insert 1 1), (⟨0⟩, .insert 2 1), (⟨0⟩, .insert 3 1), (⟨0⟩, .insert 4 1),
        (⟨5⟩, .insert 5 1), (⟨10⟩, .get 1), (⟨10⟩, .insert 2 2), (⟨10⟩, .remove 3),
        (⟨10⟩, .removeWhere fun _ value => value = 1), (⟨11⟩, .insert 2 3), (⟨11⟩, .get 2),
        (⟨11⟩, .insert 6 4), (⟨11⟩, .remove 6), (⟨11⟩, .insert 7 7), (⟨12⟩, .insert 8 5),
        (⟨12⟩, .peek 9), (⟨12⟩, .get 9), (⟨12⟩, .clear), (⟨12⟩, .insert 1 1)]
    (lru.account calls).Balances (lru.after calls).stats ∧
      lru.account calls = ⟨11, 1, 1, 1, 1, 3, 1⟩ ∧
      (lru.after calls).stats = ⟨1, 2, 1, 1, 6⟩ :=
  ⟨account_balances 6 _ _ _, by decide, by decide⟩

end Lru
end RecordCache
