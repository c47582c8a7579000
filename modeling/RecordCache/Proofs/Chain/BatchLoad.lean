import Mathlib.Data.List.ReduceOption
import RecordCache.Proofs.Chain.Sound
import RecordCache.Proofs.Chain.WriteThrough
import RecordCache.Proofs.Database.Unreadable
import RecordCache.Proofs.Memory.Live

/-!
# Reading a batch of keys

Each tier of a chain may hold a record under a key, and these need not be the same. A batch looks in
one tier after the other, and what a tier finds is not looked for behind it. A batch that evicts
takes a record away when it finds it, so that a key that is listed again is looked for behind.

* `Chain.copies` are the records that the tiers hold under a key, `Copies.served` is the one that a
  batch gives, and `Copies.spend` what it leaves;
* `Contents.served_missed`, `spend_missed`: one tier in front of others;
* `Chain.Retains`: no tier has lost a record, unless it needed room;
* `Chain.Batched` says what a batch gives and leaves, with `batched_store` and `batched_memory` for
  one tier, and `batched_loadAll` by induction for all;
* `Chain.loadAll_served`: batches that take each record where it is first found, and the others.
-/

namespace RecordCache

/-- What the tiers of a chain hold under one key, fastest first. -/
abbrev Copies := List (Option Record)

namespace Copies

/-- The record that a key gives which is looked for so many times, each time in the fastest tier
that still has one: the last one found. -/
def served (times : Nat) (copies : Copies) : Option Record :=
  (copies.reduceOption.take times).getLast?

/-- What is left when so many records were taken, each from the fastest tier that still had one. -/
def spend : Nat → Copies → Copies
  | _, [] => []
  | times, none :: rest => none :: spend times rest
  | 0, some r :: rest => some r :: rest
  | times + 1, some _ :: rest => none :: spend times rest

theorem served_zero (copies : Copies) : served 0 copies = none := rfl

theorem served_nil (times : Nat) : served times [] = none := by
  rw [served, List.reduceOption_nil, List.take_nil]
  rfl

theorem filterMap_served_nil (times : Key → Nat) (keys : List Key) :
    keys.filterMap (fun key => served (times key) []) = [] := by
  simp only [served_nil]
  exact List.filterMap_none _

theorem served_none (times : Nat) (rest : Copies) :
    served times (none :: rest) = served times rest := rfl

theorem served_some (times : Nat) (r : Record) (rest : Copies) :
    served (times + 1) (some r :: rest) = (served times rest).or (some r) := by
  rw [served, List.reduceOption_cons_of_some, List.take_succ_cons, List.getLast?_cons, served]
  cases (rest.reduceOption.take times).getLast? <;> rfl

/-- A key that is looked for once gives the record of the fastest tier that has one. -/
theorem served_one (copies : Copies) : served 1 copies = copies.reduceOption.head? := by
  rw [served]
  cases copies.reduceOption <;> rfl

/-- A tier with nothing behind it. -/
theorem served_alone {times : Nat} (htimes : 0 < times) (copy : Option Record) :
    served times [copy] = copy := by
  obtain ⟨times, rfl⟩ := Nat.exists_eq_succ_of_ne_zero htimes.ne'
  cases copy with
  | none => exact served_nil _
  | some r => rw [served_some, served_nil, Option.none_or]

theorem mem_of_served {times : Nat} {copies : Copies} {r : Record}
    (h : served times copies = some r) : some r ∈ copies :=
  List.reduceOption_mem_iff.1 (List.mem_of_mem_take (List.mem_of_getLast? h))

theorem spend_zero (copies : Copies) : spend 0 copies = copies := by
  induction copies with
  | nil => rfl
  | cons copy rest ih =>
    cases copy with
    | none => exact congrArg (none :: ·) ih
    | some r => rfl

theorem spend_alone (times : Nat) (copy : Option Record) :
    spend times [copy] = if 0 < times then [none] else [copy] := by
  cases times <;> cases copy <;> rfl

end Copies

open Copies

/-- How often a batch looks for a key: wherever it is listed if it evicts, and otherwise once. -/
def Batch.lookups (evict : Bool) (keys : List Key) (key : Key) : Nat :=
  if evict then keys.count key else 1

theorem Batch.lookups_pos {evict : Bool} {keys : List Key} {key : Key} (hkey : key ∈ keys) :
    0 < lookups evict keys key := by
  cases evict with
  | false => exact Nat.one_pos
  | true => exact List.count_pos_iff.2 hkey

namespace Contents

variable {c : Contents} {evict : Bool} {keys : List Key} {key : Key}

/-- What a tier misses is looked for behind, and wins over what the tier found itself. -/
theorem served_missed (hkey : key ∈ keys) (rest : Copies) :
    (if key ∈ c.missed evict keys then
        served (Batch.lookups evict (c.missed evict keys) key) rest else none).or (c.find? key) =
      served (Batch.lookups evict keys key) (c.find? key :: rest) := by
  have hcount := count_missed evict c keys key
  have hmissed : 0 < (c.missed evict keys).count key ↔ key ∈ c.missed evict keys :=
    List.count_pos_iff
  have hlisted : 0 < keys.count key := List.count_pos_iff.2 hkey
  rw [SortedMap.contains] at hcount
  cases hfind : c.find? key with
  | none =>
    rw [hfind] at hcount
    have hsame : (c.missed evict keys).count key = keys.count key := hcount
    have hlookups : Batch.lookups evict (c.missed evict keys) key =
        Batch.lookups evict keys key := by
      rw [Batch.lookups, hsame, Batch.lookups]
    rw [if_pos (hmissed.1 (hsame ▸ hlisted)), hlookups, Option.or_none, served_none]
  | some r =>
    rw [hfind] at hcount
    cases evict with
    | false =>
      rw [if_neg (not_mem_missed (SortedMap.contains_iff.2 ⟨r, hfind⟩) keys)]
      exact (served_some 0 r rest).symm
    | true =>
      have hfewer : (c.missed true keys).count key = keys.count key - 1 := hcount
      have hlookups : Batch.lookups true keys key = (c.missed true keys).count key + 1 := by
        show keys.count key = _
        omega
      rw [hlookups, served_some]
      split
      · rfl
      · rename_i hfound
        rw [List.count_eq_zero.2 hfound, served_zero]

/-- What a tier misses is taken behind, and the first that it finds from itself. -/
theorem spend_missed (c : Contents) (keys : List Key) (key : Key) (rest : Copies) :
    (c.afterReading true keys).find? key :: spend ((c.missed true keys).count key) rest =
      spend (keys.count key) (c.find? key :: rest) := by
  rw [find?_afterReading, count_missed, SortedMap.contains]
  cases hfind : c.find? key with
  | none =>
    rw [ite_self]
    rfl
  | some r =>
    cases hcount : keys.count key with
    | zero =>
      rw [if_neg fun h => List.count_eq_zero.1 hcount h.2]
      exact congrArg (some r :: ·) (spend_zero rest)
    | succ times =>
      have hlisted : key ∈ keys := List.count_pos_iff.1 (hcount ▸ Nat.succ_pos times)
      rw [if_pos ⟨rfl, hlisted⟩]
      rfl

end Contents

namespace Chain

/-- What the tiers hold under a key, fastest first: the memory tiers their live records, and the
persistent one, unless it is kept out of the read, the record of a row that can be read. -/
def copies (now : Instant) (headers : Headers) (key : Key) : Chain → Copies
  | empty => []
  | store s =>
    if headers.has Headers.memoryCacheOnly then [] else [s.database.readable.find? key]
  | memory m next => (m.live now).find? key :: copies now headers key next

/-- The second chain has all that the first has: the same store, and the live records of each memory
tier, if this one has nothing to keep from behind or evicted nothing. -/
inductive Retains (now : Instant) : Chain → Chain → Prop
  | empty : Retains now empty empty
  | store (s : Store) : Retains now (store s) (store s)
  | memory {m m' : Memory} {next next' : Chain} :
    (next = empty ∨ m'.lru.evictions = m.lru.evictions →
      ∀ key r, (m.live now).find? key = some r → (m'.live now).find? key = some r) →
    Retains now next next' → Retains now (memory m next) (memory m' next')

/-- The persistent tier, if it takes part in a read of the keys, has a table and can read their
rows, without a statement that binds too many parameters. -/
def CanRead (chain : Chain) (headers : Headers) (keys : List Key) : Prop :=
  headers.has Headers.memoryCacheOnly = false → ∀ s, chain.store? = some s →
    s.database.table.isSome = true ∧ Database.Binds s.config.maxParameters keys.length ∧
      ∀ key ∈ keys, ¬s.database.Unreadable key

theorem CanRead.sublist {chain : Chain} {headers : Headers} {keys keys' : List Key}
    (h : chain.CanRead headers keys) (hsublist : keys'.Sublist keys) :
    chain.CanRead headers keys' := by
  intro hvisible s hs
  obtain ⟨htable, hbinds, hread⟩ := h hvisible s hs
  exact ⟨htable, hbinds.mono hsublist.length_le, fun key hkey => hread key (hsublist.subset hkey)⟩

variable {chain : Chain} (now : Instant)

theorem key_of_copies (h : chain.Sound) {headers : Headers} {key : Key} {r : Record}
    (hr : some r ∈ copies now headers key chain) : r.key = key := by
  induction chain with
  | empty => cases hr
  | store s =>
    rw [copies] at hr
    split at hr
    · cases hr
    · exact s.database.keyed_readable key r (List.mem_singleton.1 hr).symm
  | memory m next ih =>
    rcases List.mem_cons.1 hr with hr | hr
    · rw [Memory.live, Lru.find?_live] at hr
      exact h.1.keyed.of_peek hr.symm
    · exact ih h.2 hr

theorem loadAll_nil (chain : Chain) (now : Instant) (headers : Headers) :
    chain.loadAll now [] headers = ⟨[], chain, []⟩ := by
  cases chain with
  | empty => rfl
  | store s =>
    rw [loadAll, Store.load, List.isEmpty_nil, Bool.or_true]
    rfl
  | memory m next => rfl

/-- **One memory tier.** A batch reads the keys that the tier misses behind it, keeps what comes
from there unless it evicts, and puts both together. -/
theorem loadAll_memory (m : Memory) (next : Chain) (keys : List Key) (headers : Headers) :
    let evict := headers.has Headers.evictAfterRead
    let read := m.loadAll now evict keys ⟨∅, []⟩
    let outcome := next.loadAll now read.1.missing headers
    (memory m next).loadAll now keys headers =
      ⟨Batch.inOrder
          (outcome.value.foldl (fun records r => records.insert r.key r) read.1.records) keys,
        memory (if evict then read.2
          else outcome.value.foldl (fun m r => m.put now r.key r) read.2) outcome.state,
        outcome.reports⟩ := by
  dsimp only
  rw [loadAll]
  cases m.loadAll now (headers.has Headers.evictAfterRead) keys ⟨∅, []⟩ with
  | mk found m' =>
    dsimp only
    split
    · rename_i hempty
      rw [List.isEmpty_iff.1 hempty, loadAll_nil]
      cases headers.has Headers.evictAfterRead <;> rfl
    · rfl

/-- What a batch gives and leaves. It gives each key once, where it is listed first, and reports
nothing. If it evicts, the records found for a key are gone from their tiers, one for each time that
the key is listed, and all others are there; if not, no tier has lost one. A persistent tier that is
kept out of the read stays as it was. -/
structure Batched (headers : Headers) (keys : List Key) (chain : Chain)
    (outcome : Outcome Chain (List Record)) : Prop where
  value : outcome.value = keys.eraseDups.filterMap fun key =>
    served (Batch.lookups (headers.has Headers.evictAfterRead) keys key)
      (copies now headers key chain)
  reports : outcome.reports = []
  evicted : headers.has Headers.evictAfterRead = true → ∀ key,
    copies now headers key outcome.state =
      spend (keys.count key) (copies now headers key chain)
  retained : headers.has Headers.evictAfterRead = false → Retains now chain outcome.state
  hidden : headers.has Headers.memoryCacheOnly = true → outcome.state.store? = chain.store?

theorem batched_empty (headers : Headers) (keys : List Key) :
    Batched now headers keys empty (empty.loadAll now keys headers) where
  value := (filterMap_served_nil _ _).symm
  reports := rfl
  evicted _ _ := rfl
  retained _ := .empty
  hidden _ := rfl

/-- A persistent tier that is kept out of the read. -/
theorem batched_hidden (s : Store) {headers : Headers} (keys : List Key)
    (hhidden : headers.has Headers.memoryCacheOnly = true) :
    Batched now headers keys (store s) ((store s).loadAll now keys headers) := by
  have hload : (store s).loadAll now keys headers = ⟨[], store s, []⟩ := by
    rw [loadAll, Store.load, hhidden, Bool.true_or]
    rfl
  rw [hload]
  refine ⟨?_, rfl, fun _ key => ?_, fun _ => .store s, fun _ => rfl⟩
  · simp only [copies, hhidden, if_true]
    exact (filterMap_served_nil _ _).symm
  · simp only [copies, hhidden, if_true]
    exact (spend.eq_1 _).symm

/-- A persistent tier that is read. -/
theorem batched_visible {s : Store} {headers : Headers} {keys : List Key}
    (hread : (store s).CanRead headers keys)
    (hvisible : headers.has Headers.memoryCacheOnly = false) :
    Batched now headers keys (store s) ((store s).loadAll now keys headers) := by
  obtain ⟨htable, hbinds, hgood⟩ := hread hvisible s rfl
  obtain ⟨table, htable⟩ := Option.isSome_iff_exists.1 htable
  have hdatabase : s.database = ⟨some table⟩ := congrArg Database.mk htable
  have hrows := Database.read?_eq hgood
  rw [hdatabase] at hrows
  obtain ⟨table', hload, -, hleft⟩ := Store.load_eq headers hdatabase hvisible
    (Database.keyed_readable ⟨some table⟩) hrows hbinds
  -- the tier has one copy of each key, that of its row
  have hcopies (db : Database) (key : Key) :
      copies now headers key (store { s with database := db }) = [db.readable.find? key] := by
    rw [copies, hvisible]
    rfl
  have hcopies' (key : Key) : copies now headers key (store s) =
      [(Database.readable ⟨some table⟩).find? key] := by
    rw [← hdatabase]
    exact hcopies s.database key
  refine ⟨?_, ?_, fun hevict key => ?_, fun hkeep => ?_, fun h => ?_⟩
  · rw [loadAll, hload]
    refine (Batch.inOrder_eq _ _).trans (List.filterMap_congr fun key hkey => ?_)
    rw [hcopies', served_alone (Batch.lookups_pos (List.mem_eraseDups.1 hkey))]
  · rw [loadAll, hload]
    rfl
  · rw [loadAll, hload, hcopies']
    refine (hcopies ⟨some table'⟩ key).trans ?_
    have hrow : Database.read? ⟨some table'⟩ key =
        if key ∈ keys then none else Database.read? ⟨some table⟩ key :=
      (hleft key).trans (if_congr (and_iff_right hevict) rfl rfl)
    rw [Database.find?_readable_eq, hrow, Database.find?_readable_eq]
    rw [spend_alone, if_congr List.count_pos_iff rfl rfl]
    split <;> rfl
  · have hstate : ((store s).loadAll now keys headers).state = store s :=
      congrArg store (s.load_state keys hkeep)
    rw [hstate]
    exact .store s
  · rw [hvisible] at h
    cases h

theorem batched_store {s : Store} {headers : Headers} {keys : List Key}
    (hread : (store s).CanRead headers keys) :
    Batched now headers keys (store s) ((store s).loadAll now keys headers) := by
  cases hhidden : headers.has Headers.memoryCacheOnly with
  | true => exact batched_hidden now s keys hhidden
  | false => exact batched_visible now hread hhidden

theorem Batched.find?_put {headers : Headers} {keys : List Key}
    {outcome : Outcome Chain (List Record)} (h : Batched now headers keys chain outcome)
    (hsound : chain.Sound) (c : Contents) (key : Key) :
    (outcome.value.foldl (fun c r => c.insert r.key r) c).find? key =
      (if key ∈ keys then
        served (Batch.lookups (headers.has Headers.evictAfterRead) keys key)
          (copies now headers key chain) else none).or (c.find? key) := by
  have hkeyed (key : Key) (r : Record) (hr : served
      (Batch.lookups (headers.has Headers.evictAfterRead) keys key)
        (copies now headers key chain) = some r) : r.key = key :=
    key_of_copies now hsound (mem_of_served hr)
  rw [Batch.find?_foldl_put, h.value, Batch.find?_byKey_filterMap hkeyed]
  exact congrArg (Option.or · _) (if_congr List.mem_eraseDups rfl rfl)

theorem batched_memory {m : Memory} {next : Chain} (hm : m.Sound) (hnext : next.Sound)
    {headers : Headers} {keys : List Key}
    (h : ∀ keys', keys'.Sublist keys →
      Batched now headers keys' next (next.loadAll now keys' headers)) :
    Batched now headers keys (memory m next) ((memory m next).loadAll now keys headers) := by
  obtain ⟨hrecords, hmissing, hlive⟩ :=
    m.loadAll_live now (headers.has Headers.evictAfterRead) keys ⟨∅, []⟩
  have hmissed : _ = (m.live now).missed (headers.has Headers.evictAfterRead) keys := hmissing
  have hread := hm.keeps (m.keeps_loadAll now (headers.has Headers.evictAfterRead) keys ⟨∅, []⟩)
  have hevictions := m.evictions_le_loadAll now (headers.has Headers.evictAfterRead) keys ⟨∅, []⟩
  have hbehind := h _ (Contents.missed_sublist (headers.has Headers.evictAfterRead)
    (m.live now) keys)
  have hload := loadAll_memory now m next keys headers
  dsimp only at hload
  rw [hmissed] at hload
  -- what is not live here is asked for behind, and written back if it is found there
  have hput := hbehind.find?_put now hnext
  generalize next.loadAll now _ headers = outcome at *
  generalize m.loadAll now _ keys ⟨∅, []⟩ = read at *
  rw [hload]
  refine ⟨?_, hbehind.reports, fun hevict key => ?_, fun hkeep => ?_, hbehind.hidden⟩
  · refine (Batch.inOrder_eq _ _).trans (List.filterMap_congr fun key hkey => ?_)
    have hlisted := List.mem_eraseDups.1 hkey
    rw [hput, hrecords, if_pos hlisted]
    refine Eq.trans ?_ (Contents.served_missed hlisted _)
    exact congrArg (Option.or _) Option.or_none
  · have hspent := hbehind.evicted hevict key
    rw [hevict] at hlive hspent ⊢
    show (read.2.live now).find? key :: copies now headers key outcome.state = _
    rw [hlive, hspent]
    exact Contents.spend_missed (m.live now) keys key _
  · have hretained := hbehind.retained hkeep
    rw [hkeep] at hlive hput ⊢
    refine .memory (fun hroom key r hr => ?_) hretained
    have hread' : (read.2.live now).find? key = some r := hlive ▸ hr
    show ((outcome.value.foldl (fun m r => m.put now r.key r) read.2).live now).find? key = some r
    -- writing back drops nothing: there is nothing to write, or no eviction was counted
    rcases hroom with rfl | hroom
    · have hnothing : outcome.value = [] := hbehind.value.trans (filterMap_served_nil _ _)
      rw [hnothing]
      exact hread'
    · obtain ⟨hmore, hnone⟩ := Memory.foldl_put_live now hread.valid hread.lasting outcome.value
      have hfound := Contents.not_mem_missed (SortedMap.contains_iff.2 ⟨r, hr⟩) keys
      rw [hnone (Nat.le_antisymm (hroom.trans_le hevictions) hmore), hput, if_neg hfound]
      exact hread'

/-- By induction on the tiers. -/
theorem batched_loadAll (h : chain.Sound) {headers : Headers} {keys : List Key}
    (hread : chain.CanRead headers keys) :
    Batched now headers keys chain (chain.loadAll now keys headers) := by
  induction chain generalizing keys with
  | empty => exact batched_empty now headers keys
  | store s => exact batched_store now hread
  | memory m next ih =>
    exact batched_memory now h.1 h.2 fun keys' hkeys => ih h.2 (hread.sublist hkeys)

/-- **Reading a batch.** A batch gives each key once, in the order in which the keys are listed
first. A batch that does not evict gives the record of the fastest tier that has one, and no tier
loses it. One that evicts looks for a key wherever it is listed, and behind when it has taken the
record away: of a key that is listed several times it gives the record of the last tier in which it
found one, and all that it found are gone. So it gives the record of the fastest tier, and takes
that one only, if no key is listed twice. -/
theorem loadAll_served (h : chain.Sound) {headers : Headers} {keys : List Key}
    (hread : chain.CanRead headers keys) :
    Batched now headers keys chain (chain.loadAll now keys headers) ∧
      (headers.has Headers.evictAfterRead = false ∨ keys.Nodup →
        (chain.loadAll now keys headers).value = keys.eraseDups.filterMap fun key =>
          (copies now headers key chain).reduceOption.head?) := by
  have hbatched := batched_loadAll now h hread
  refine ⟨hbatched, fun honce => hbatched.value.trans (List.filterMap_congr fun key hkey => ?_)⟩
  have hlookups : Batch.lookups (headers.has Headers.evictAfterRead) keys key = 1 := by
    rw [Batch.lookups]
    rcases honce with hkeep | hdistinct
    · rw [hkeep]
      rfl
    · rw [hdistinct.count, if_pos (List.mem_eraseDups.1 hkey), ite_self]
  rw [hlookups, served_one]

/-- The memory tier has a newer record of the key that is listed twice, but the one of the row is
given, and both are gone. -/
theorem loadAll_served_listed_twice :
    let record (name : String) (n : Int64) : Record :=
      (Record.new ⟨name⟩ "T").withField "x" (.int n)
    let m := ((Memory.new ⟨4, some ⟨Duration.second⟩, false⟩ Weigher.one).merge ⟨0⟩
      [record "a" 2] Headers.none Merger.overwrite).2
    let rows := [record "a" 1, record "b" 1].map ((WriteDates.ofHeaders ⟨0⟩ Headers.none).row false)
    let chain := memory m (store ⟨{}, ⟨some ⟨rows, false⟩⟩⟩)
    let keys : List Key := [⟨"a"⟩, ⟨"b"⟩, ⟨"a"⟩]
    let headers := Headers.none.flag Headers.evictAfterRead
    let outcome := chain.loadAll ⟨7⟩ keys headers
    let holds (n : Int64) (r : Record) : Bool := (r.fields.find? "x").any (·.equals (.int n))
    (chain.Sound ∧ chain.CanRead headers keys) ∧
      Batched ⟨7⟩ headers keys chain outcome ∧
      ((m.live ⟨7⟩).find? ⟨"a"⟩).any (holds 2) = true ∧
      (outcome.value.map fun r => (r.key.text, holds 1 r)) = [("a", true), ("b", true)] ∧
      (copies ⟨7⟩ headers ⟨"a"⟩ outcome.state).map Option.isSome = [false, false] := by
  intro record m rows chain keys headers outcome holds
  have hsound : chain.Sound := ⟨(Memory.sound_new rfl _).keeps (Memory.keeps_merge ..), trivial⟩
  have hread : chain.CanRead headers keys := by
    rintro - s ⟨⟩
    exact ⟨rfl, .inl (by decide), fun key _ => Database.not_unreadable (by decide +kernel) key⟩
  obtain ⟨hbatched, -⟩ := loadAll_served ⟨7⟩ hsound hread
  exact ⟨⟨hsound, hread⟩, hbatched, by decide +kernel, by decide +kernel,
    by decide +kernel⟩

end Chain
end RecordCache
