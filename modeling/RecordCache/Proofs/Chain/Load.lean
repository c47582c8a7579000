import RecordCache.Chain
import RecordCache.Proofs.Lru.Operations

/-!
# Reading through a memory tier

A memory tier either has the record that is read, or lets the read through to the tiers behind it.

* `Memory.load_fst`: a read of a tier finds what a look at it shows;
* `Chain.load_hit`, `Chain.load_miss`: a read of a memory tier that has the record or does not, with
  any tiers behind it;
* `Chain.load_memory_value`: what the read gives in either case.
-/

namespace RecordCache

/-- What a load finds in a memory tier is what a look at it shows. -/
theorem Memory.load_fst (m : Memory) (now : Instant) (evict : Bool) (key : Key) :
    (m.load now evict key).1 = m.lru.peek now key := by
  rw [← Lru.get_fst, load]
  cases m.lru.get now key with
  | mk found lru => cases found <;> rfl

namespace Chain

variable {m : Memory} {next : Chain} {now : Instant} {key : Key}

/-- A tier that has the record gives it, and those behind are not asked. -/
theorem load_hit (headers : Headers) {r : Record} (hpeek : m.lru.peek now key = some r) :
    (memory m next).load now key headers =
      ⟨some r, memory (m.load now (headers.has Headers.evictAfterRead) key).2 next, []⟩ := by
  have hfound := (m.load_fst now (headers.has Headers.evictAfterRead) key).trans hpeek
  rw [load]
  cases hread : m.load now (headers.has Headers.evictAfterRead) key with
  | mk found m' =>
    rw [hread] at hfound
    cases hfound
    rfl

/-- A tier that does not have the record lets the read through, and is given the record that comes
from behind, unless the read evicts. -/
theorem load_miss (headers : Headers) (hpeek : m.lru.peek now key = none) :
    let evict := headers.has Headers.evictAfterRead
    let missed := (m.load now evict key).2
    let outcome := next.load now key headers
    (memory m next).load now key headers =
      ⟨outcome.value,
        memory (outcome.value.elim missed fun r => if evict then missed else missed.put now key r)
          outcome.state, outcome.reports⟩ := by
  have hfound := (m.load_fst now (headers.has Headers.evictAfterRead) key).trans hpeek
  dsimp only
  rw [load]
  cases hread : m.load now (headers.has Headers.evictAfterRead) key with
  | mk found m' =>
    rw [hread] at hfound
    cases hfound
    generalize next.load now key headers = outcome
    obtain ⟨value, behind, reports⟩ := outcome
    cases value <;> rfl

/-- A read gives what the first tier has, or what is behind it. -/
theorem load_memory_value (m : Memory) (next : Chain) (now : Instant) (key : Key)
    (headers : Headers) :
    ((memory m next).load now key headers).value =
      (m.lru.peek now key).or (next.load now key headers).value := by
  cases hpeek : m.lru.peek now key with
  | none => rw [load_miss headers hpeek, Option.none_or]
  | some r => rw [load_hit headers hpeek, Option.some_or]

end Chain
end RecordCache
