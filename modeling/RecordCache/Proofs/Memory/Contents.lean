import RecordCache.Proofs.Memory.Removal

/-!
# The contents of a memory tier

A memory tier whose records do not expire does to its contents what each operation says, as long as
it evicts nothing.

* `Memory.Holds` says what the contents of a tier are;
* `Memory.load_eq`, `loadAll_eq`: reading, and what is left by a read that evicts;
* `Memory.merge_eq`: merging, unless something is evicted;
* `Memory.removeKeys_removal`, `removeWhere_removal`: removals.
-/

namespace RecordCache.Memory

/-- The tier is in a valid state, its records do not expire, and these are its contents. -/
structure Holds (m : Memory) (c : Contents) : Prop where
  valid : m.lru.Valid
  lasting : m.lru.expireAfter = none
  contents : m.lru.contents = c

variable {m m' : Memory} {c c' : Contents}

theorem holds_new {config : MemoryConfig} (weigh : Weigher) (h : config.expireAfter = none) :
    (new config weigh).Holds ∅ :=
  ⟨Lru.valid_new _ _ _, h, rfl⟩

theorem Holds.keeps (h : m.Holds c) (hkeeps : Keeps m m') (hcontents : m'.lru.contents = c') :
    m'.Holds c' := by
  obtain ⟨hvalid, hsettings, -⟩ := hkeeps.lru h.valid
  exact ⟨hvalid, hsettings.expireAfter.trans h.lasting, hcontents⟩

theorem Holds.expires (h : m.Holds c) : m.lru.expireAfter ≠ some ⟨0⟩ := by
  rw [h.lasting]
  exact Option.some_ne_none _ ∘ Eq.symm

theorem Holds.live_eq (h : m.Holds c) (now : Instant) : m.live now = c :=
  (Lru.live_eq_contents h.lasting).trans h.contents

theorem Holds.of_live (h : m.Holds c) (hkeeps : Keeps m m') {now : Instant}
    (hlive : m'.live now = c') : m'.Holds c' := by
  obtain ⟨-, hsettings, -⟩ := hkeeps.lru h.valid
  have hlasting := hsettings.expireAfter.trans h.lasting
  exact h.keeps hkeeps ((Lru.live_eq_contents hlasting).symm.trans hlive)

/-- A record that is read is the one under its key, and is gone when the read evicts. -/
theorem load_eq (h : m.Holds c) (now : Instant) (evict : Bool) (key : Key) :
    (m.load now evict key).1 = c.find? key ∧
      (m.load now evict key).2.Holds (c.afterReading evict [key]) := by
  obtain ⟨hfound, hlive⟩ := load_live m now evict key
  rw [h.live_eq] at hfound hlive
  exact ⟨hfound, h.of_live (keeps_load m now evict key) hlive⟩

/-- The same for several keys, one after the other. -/
theorem loadAll_eq (h : m.Holds c) (now : Instant) (evict : Bool) (keys : List Key)
    (found : Found) :
    (∀ key, (m.loadAll now evict keys found).1.records.find? key =
        (if key ∈ keys then c.find? key else none).or (found.records.find? key)) ∧
      (m.loadAll now evict keys found).2.Holds (c.afterReading evict keys) := by
  obtain ⟨hrecords, -, hlive⟩ := loadAll_live m now evict keys found
  rw [h.live_eq] at hrecords hlive
  exact ⟨hrecords, h.of_live (keeps_loadAll m now evict keys found) hlive⟩

/-- The result of a batch is that of the contents. -/
def Follows (result : NameSet × Memory) (expected : NameSet × Contents) : Prop :=
  result.1 = expected.1 ∧ result.2.Holds expected.2

section Merge

variable (now : Instant) (headers : Headers) (merger : Merger)

theorem evictions_le_merge (h : m.Holds c) (records : List Record) :
    m.lru.evictions ≤ (m.merge now records headers merger).2.lru.evictions :=
  (merge_live now headers merger h.valid h.expires records).1

/-- **Merging in memory.** A batch that evicts nothing is merged into the contents. -/
theorem merge_eq (h : m.Holds c) (records : List Record)
    (hnone : (m.merge now records headers merger).2.lru.evictions = m.lru.evictions) :
    Follows (m.merge now records headers merger) (c.merge headers merger
      (records.map (Record.stamped m.config.trackDates headers))) := by
  have hown := h.keeps (keeps_merge m now records headers merger) rfl
  have hmerged := (merge_live now headers merger h.valid h.expires records).2 hnone
  rw [h.live_eq now, hown.live_eq now] at hmerged
  rw [← hmerged]
  exact ⟨rfl, hown⟩

end Merge

/-- **Removing from memory.** The keys removed are those reached, whatever the order of the
queue. -/
theorem removeKeys_removal (h : m.Holds c) (now : Instant) (keys : List Key) (cascade : Bool) :
    ∃ c', c.Removal (c.Reached cascade keys) (m.removeKeys now keys cascade).1 c' ∧
      (m.removeKeys now keys cascade).2.Holds c' := by
  obtain ⟨visited, hremoving⟩ := removeKeys_removing m now keys cascade
  have hreached := hremoving.reached_iff
  have hcounted := hremoving.counted
  have hlasting := hremoving.settings.expireAfter.trans h.lasting
  rw [Lru.live_eq_contents h.lasting, h.contents] at hreached hcounted
  rw [Lru.live_eq_contents hlasting] at hcounted
  have hfind (key : Key) : (m.removeKeys now keys cascade).2.lru.contents.find? key =
      if visited.contains key = true then none else c.find? key := by
    rw [← h.contents, Lru.find?_contents, hremoving.entries, Lru.find?_contents]
    split <;> rfl
  refine ⟨_, ⟨fun key hkey => ?_, fun key hkey => ?_, hcounted⟩,
    h.keeps (keeps_removeKeys m now keys cascade) rfl⟩
  · rw [hfind, if_pos ((hreached key).1 hkey)]
  · rw [hfind, if_neg (mt (hreached key).2 hkey)]

theorem removeWhere_removal (h : m.Holds c) (now : Instant) (matching : Key → Record → Bool) :
    ∃ c', c.Removal (fun key => ∃ r, c.find? key = some r ∧ matching key r = true)
        (m.removeWhere now matching).1 c' ∧ (m.removeWhere now matching).2.Holds c' := by
  have hremove : (m.removeWhere now matching).2.lru.contents =
        m.lru.contents.filter (fun key r => !matching key r) ∧
      (m.removeWhere now matching).1 + (m.removeWhere now matching).2.lru.contents.size =
        m.lru.contents.size := Lru.contents_removeWhere h.valid h.lasting matching
  rw [h.contents] at hremove
  obtain ⟨hcontents, hcounted⟩ := hremove
  refine ⟨_, ⟨?_, ?_, hcounted⟩, h.keeps (keeps_removeWhere m now matching) rfl⟩
  · rintro key ⟨r, hfind, hmatching⟩
    rw [hcontents, SortedMap.find?_filter, hfind, Option.filter_some, hmatching]
    rfl
  · intro key hkey
    rw [hcontents, SortedMap.find?_filter]
    cases hfind : c.find? key with
    | none => rfl
    | some r =>
      have hspared : matching key r = false := by
        rw [Bool.eq_false_iff]
        exact fun hmatching => hkey ⟨r, hfind, hmatching⟩
      rw [Option.filter_some, hspared]
      rfl

theorem holds_clear (h : m.Holds c) : m.clear.Holds ∅ := h.keeps (keeps_clear m) rfl

theorem dump_eq (h : m.Holds c) (now : Instant) : m.dump now = c := by
  rw [dump, Lru.ofList_snapshot h.valid h.lasting, h.contents]

end RecordCache.Memory
