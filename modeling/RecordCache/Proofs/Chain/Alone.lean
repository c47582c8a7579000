import RecordCache.Chain
import RecordCache.Proofs.SortedMap

/-!
# A memory tier with nothing behind it

What a chain of one memory tier does is what the tier does: it reads from nowhere else, and reports
nothing.

* `Chain.evictions` counts what the memory tiers of a chain have evicted;
* `Chain.load_alone`, `merge_alone` and their like: one lemma for each operation.
-/

namespace RecordCache

/-- The records that memory tiers have evicted. -/
def Chain.evictions : Chain → Nat
  | .empty => 0
  | .store _ => 0
  | .memory m next => m.lru.evictions + next.evictions

namespace Chain

theorem load_alone (m : Memory) (now : Instant) (key : Key) (headers : Headers) :
    (memory m empty).load now key headers =
      ⟨(m.load now (headers.has Headers.evictAfterRead) key).1,
        memory (m.load now (headers.has Headers.evictAfterRead) key).2 empty, []⟩ := by
  rw [load]
  cases m.load now (headers.has Headers.evictAfterRead) key with
  | mk found m' => cases found <;> rfl

theorem loadAll_alone (m : Memory) (now : Instant) (keys : List Key) (headers : Headers) :
    let read := m.loadAll now (headers.has Headers.evictAfterRead) keys ⟨∅, []⟩
    (memory m empty).loadAll now keys headers =
      ⟨Batch.inOrder read.1.records keys, memory read.2 empty, []⟩ := by
  dsimp only
  rw [loadAll]
  cases m.loadAll now (headers.has Headers.evictAfterRead) keys ⟨∅, []⟩ with
  | mk found m' =>
    dsimp only
    split
    · rfl
    · cases headers.has Headers.evictAfterRead <;> rfl

theorem merge_alone (m : Memory) (now : Instant) (records : List Record) {headers : Headers}
    (hstore : headers.has Headers.doNotStore = false) (merger : Merger) :
    (memory m empty).merge now records headers merger =
      ⟨(m.merge now records headers merger).1,
        memory (m.merge now records headers merger).2 empty, []⟩ := by
  have hunion (paths : NameSet) : paths ∪ ∅ = paths := SortedSet.ext fun path => by
    rw [SortedSet.contains_union]
    exact Bool.or_false _
  rw [merge, hstore]
  exact congrArg (fun paths => Outcome.mk paths _ []) (hunion _)

theorem removeKeys_alone (m : Memory) (now : Instant) (keys : List Key) (cascade : Bool) :
    (memory m empty).removeKeys now keys cascade =
      ⟨(m.removeKeys now keys cascade).1, memory (m.removeKeys now keys cascade).2 empty, []⟩ :=
  congrArg (fun n => Outcome.mk n _ []) (Nat.max_zero _)

theorem removeMatched_alone (m : Memory) (now : Instant) (pattern : Pattern) :
    (memory m empty).removeMatched now pattern =
      ⟨(m.removeWhere now fun key _ => pattern.accepts key).1,
        memory (m.removeWhere now fun key _ => pattern.accepts key).2 empty, []⟩ :=
  congrArg (fun n => Outcome.mk n _ []) (Nat.max_zero _)

theorem removeTypes_alone (m : Memory) (now : Instant) (types : List String) :
    (memory m empty).removeTypes now types =
      ⟨(m.removeWhere now fun _ r => types.contains r.typeName).1,
        memory (m.removeWhere now fun _ r => types.contains r.typeName).2 empty, []⟩ :=
  congrArg (fun n => Outcome.mk n _ []) (Nat.max_zero _)

end Chain
end RecordCache
