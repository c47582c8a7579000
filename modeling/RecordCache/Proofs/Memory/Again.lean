import RecordCache.Proofs.Memory.Live
import RecordCache.Proofs.Merge.Absorb

/-!
# Merging a batch into memory twice

A memory tier holds records that have expired and were not touched since. As long as nothing is
evicted, a batch is merged into all that it holds: a record that has expired would be dropped when
its key is written, which counts as an eviction.

* `Memory.held` are all records held, and `Memory.merge_held` merges a batch into them;
* `Memory.merge_twice`: the same batch once more changes none of them.
-/

namespace RecordCache

namespace Memory

/-- All records held by key, those that have expired included. -/
def held (m : Memory) : Contents := m.lru.contents

variable {m : Memory} {records : List Record} {headers : Headers}

theorem mergeNext_held (hvalid : m.lru.Valid) (now : Instant) (headers : Headers)
    (merger : Merger) (paths : NameSet) (incoming : Record) :
    let next := mergeNext now headers merger (paths, m) incoming
    m.lru.evictions ≤ next.2.lru.evictions ∧
      (next.2.lru.evictions = m.lru.evictions →
        (next.1, next.2.held) = Contents.mergeOne headers merger (paths, m.held)
          (incoming.stamped m.config.trackDates headers)) := by
  have hmore (key : Key) (r : Record) : m.lru.evictions ≤ (m.put now key r).lru.evictions :=
    (Lru.find?_insert_kept hvalid now key r).1
  have hput (key : Key) (r : Record) (hnone : (m.put now key r).lru.evictions = m.lru.evictions) :
      m.lru.peek now key = m.held.find? key ∧ (m.put now key r).held = m.held.insert key r :=
    Lru.contents_insert hvalid now key r hnone
  dsimp only
  rw [mergeNext, mergeOne, Contents.mergeOne]
  cases hpeek : m.lru.peek now (incoming.stamped m.config.trackDates headers).key with
  | none =>
    refine ⟨hmore _ _, fun hnone => ?_⟩
    obtain ⟨hfound, hheld⟩ := hput _ _ hnone
    rw [← hfound, hpeek]
    exact congrArg (Prod.mk _) hheld
  | some existing =>
    have hfound : m.held.find? (incoming.stamped m.config.trackDates headers).key = some existing :=
      Lru.find?_contents_of_peek hpeek
    refine ⟨hmore _ _, fun hnone => ?_⟩
    rw [hfound]
    exact congrArg (Prod.mk _) (hput _ _ hnone).2

/-- A batch that evicts nothing is merged into all records held. -/
theorem merge_held (hvalid : m.lru.Valid) (now : Instant) (headers : Headers) (merger : Merger)
    (records : List Record)
    (hnone : (m.merge now records headers merger).2.lru.evictions = m.lru.evictions) :
    ((m.merge now records headers merger).1, (m.merge now records headers merger).2.held) =
      m.held.merge headers merger (records.map (Record.stamped m.config.trackDates headers)) := by
  refine (merge_view now headers merger held (fun m' hm' paths incoming => ?_) records).2 hnone
  exact mergeNext_held (hm'.lru hvalid).1 now headers merger paths incoming

theorem keyed_held (h : m.lru.All IsKeyed) : Batch.Keyed m.held := by
  intro key r hfind
  rw [held, Lru.find?_contents] at hfind
  obtain ⟨entry, hentry, rfl⟩ := Option.map_eq_some_iff.1 hfind
  exact h key entry hentry

/-- **Merging into memory again.** The second time a batch of distinct keys tells no change, and
changes no record that is held. -/
theorem merge_twice (hvalid : m.lru.Valid) (hkeyed : m.lru.All IsKeyed) (now₁ now₂ : Instant)
    (hdistinct : (records.map Record.key).Nodup) (hexact : ∀ r ∈ records, r.IsExact) :
    let once := m.merge now₁ records headers .overwrite
    let twice := once.2.merge now₂ records headers .overwrite
    once.2.lru.evictions = m.lru.evictions → twice.2.lru.evictions = once.2.lru.evictions →
      twice.1 = ∅ ∧ twice.2.held = once.2.held := by
  intro once twice honce htwice
  have hkeeps : Keeps m once.2 := keeps_merge m now₁ records headers .overwrite
  obtain ⟨hvalid', -, hkeyed'⟩ := hkeeps.lru hvalid
  let incoming := records.map (Record.stamped m.config.trackDates headers)
  have hfirst : (once.1, once.2.held) = m.held.merge headers .overwrite incoming :=
    merge_held hvalid now₁ headers .overwrite records honce
  have hsecond : (twice.1, twice.2.held) = once.2.held.merge headers .overwrite incoming := by
    have hmerged := merge_held hvalid' now₂ headers .overwrite records htwice
    rwa [hkeeps.config] at hmerged
  have hkeys : incoming.map Record.key = records.map Record.key := Record.keys_stamped _ _ _
  have hstamped : ∀ r ∈ incoming, r.fields.All (Value.HasShape .exact) := by
    refine List.forall_mem_map.2 fun r hr => ?_
    rw [Record.fields_stamped]
    exact (hexact r hr).fields
  have habsorbed : ∀ r ∈ incoming, ∃ stored, once.2.held.find? r.key = some stored ∧
      stored.Absorbs r headers := by
    rw [show once.2.held = _ from congrArg Prod.snd hfirst]
    exact Contents.absorbed_merge (keyed_held hkeyed) (hkeys ▸ hdistinct) hstamped
  rw [Contents.merge_absorbed (keyed_held (hkeyed' hkeyed)) habsorbed] at hsecond
  exact Prod.ext_iff.1 hsecond

end Memory
end RecordCache
