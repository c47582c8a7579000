import RecordCache.Proofs.Contents
import RecordCache.Proofs.Lru.Live
import RecordCache.Proofs.Memory.Keeps

/-!
# The live records of a memory tier

At a moment a memory tier holds the records that have not reached the age of expiry. They are read
as any contents are, and records are put and merged into them as into any contents, as long as
nothing is evicted on the way.

* `Memory.live` are these records by key;
* `Memory.load_live`, `loadAll_live`: reading, and what is left by a read that evicts;
* `Memory.foldl_live`, `merge_view`: steps that may evict, one after the other, and those of a
  batch that is merged;
* `Memory.foldl_put_live`, `merge_live`: putting records, and merging a batch.
-/

namespace RecordCache.Memory

/-- The live records by key. -/
def live (m : Memory) (now : Instant) : Contents := m.lru.live now

section Read

variable (m : Memory) (now : Instant) (evict : Bool)

/-- A record that is read is the live one under its key, and is gone when the read evicts. -/
theorem load_live (key : Key) :
    (m.load now evict key).1 = (m.live now).find? key ∧
      (m.load now evict key).2.live now = (m.live now).afterReading evict [key] := by
  have hfound : (m.lru.get now key).1 = (m.live now).find? key :=
    (Lru.get_fst m.lru now key).trans (Lru.find?_live m.lru now key).symm
  have hlive : (m.lru.get now key).2.live now = m.live now := Lru.live_get m.lru now key
  rw [load]
  cases hread : m.lru.get now key with
  | mk found lru =>
    rw [hread] at hfound hlive
    cases found with
    | none =>
      refine ⟨hfound, hlive.trans ?_⟩
      cases evict with
      | false => rfl
      | true => exact (SortedMap.erase_eq_self hfound.symm).symm
    | some r =>
      refine ⟨hfound, ?_⟩
      cases evict with
      | false => exact hlive
      | true => exact (Lru.live_remove lru now key).trans (congrArg (SortedMap.erase · key) hlive)

/-- The same for several keys, one after the other. -/
theorem loadAll_live (keys : List Key) (found : Found) :
    let read := m.loadAll now evict keys found
    (∀ key, read.1.records.find? key =
        (if key ∈ keys then (m.live now).find? key else none).or (found.records.find? key)) ∧
      read.1.missing = found.missing.reverse ++ (m.live now).missed evict keys ∧
      read.2.live now = (m.live now).afterReading evict keys := by
  induction keys generalizing m found with
  | nil =>
    refine ⟨fun key => rfl, (List.append_nil _).symm, ?_⟩
    cases evict <;> rfl
  | cons key keys ih =>
    obtain ⟨hfound, hlive⟩ := load_live m now evict key
    -- what the keys to come see: the key just read is gone if the read evicts
    have hagain (k : Key) : ((m.live now).afterReading evict [key]).find? k =
        if evict = true ∧ k = key then none else (m.live now).find? k := by
      rw [Contents.find?_afterReading]
      exact if_congr (by rw [List.mem_singleton]) rfl rfl
    have hleft : ((m.live now).afterReading evict [key]).afterReading evict keys =
        (m.live now).afterReading evict (key :: keys) := by
      cases evict <;> rfl
    rw [loadAll]
    cases hread : m.load now evict key with
    | mk result m' =>
      rw [hread] at hfound hlive
      cases result with
      | some r =>
        obtain ⟨hrecords, hmissing, hrest⟩ :=
          ih m' { found with records := found.records.insert key r }
        rw [hlive] at hrecords hmissing hrest
        refine ⟨fun k => ?_, ?_, hrest.trans hleft⟩
        · refine (hrecords k).trans ?_
          rw [SortedMap.find?_insert_eq, hagain]
          -- a key listed twice is found by the first of the two reads
          by_cases hk : k = key
          · rw [hk, if_pos rfl, if_pos List.mem_cons_self, ← hfound]
            cases evict <;> by_cases hkey : key ∈ keys <;> simp [hkey]
          · simp only [List.mem_cons, hk, false_or, and_false, if_false]
        · rw [Contents.missed, if_pos (SortedMap.contains_iff.2 ⟨r, hfound.symm⟩)]
          exact hmissing
      | none =>
        obtain ⟨hrecords, hmissing, hrest⟩ :=
          ih m' { found with missing := key :: found.missing }
        rw [hlive] at hrecords hmissing hrest
        refine ⟨fun k => ?_, ?_, hrest.trans hleft⟩
        · refine (hrecords k).trans ?_
          rw [hagain]
          by_cases hk : k = key
          · rw [hk, if_pos List.mem_cons_self, ← hfound, ite_self, ite_self]
          · simp only [List.mem_cons, hk, false_or, and_false, if_false]
        · have hmiss : ¬(m.live now).contains key = true := by
            rw [SortedMap.contains, ← hfound]
            exact Bool.false_ne_true
          rw [Contents.missed, if_neg hmiss]
          refine hmissing.trans ?_
          rw [List.reverse_cons, List.append_assoc]
          rfl

theorem evictions_le_load (key : Key) :
    m.lru.evictions ≤ (m.load now evict key).2.lru.evictions := by
  have hget := Lru.evictions_le_get m.lru now key
  rw [load]
  cases hread : m.lru.get now key with
  | mk found lru =>
    rw [hread] at hget
    cases found with
    | none => exact hget
    | some r =>
      cases evict with
      | false => exact hget
      | true => exact Nat.le_trans hget (Lru.evictions_le_remove lru now key)

theorem evictions_le_loadAll (keys : List Key) (found : Found) :
    m.lru.evictions ≤ (m.loadAll now evict keys found).2.lru.evictions := by
  induction keys generalizing m found with
  | nil => exact Nat.le_refl _
  | cons key keys ih =>
    have hload := evictions_le_load m now evict key
    rw [loadAll]
    split <;> rename_i hread <;> rw [hread] at hload <;> exact Nat.le_trans hload (ih _ _)

end Read

/-- Steps that keep the state of a tier, each of which evicts something or does what it does to a
view of it: by induction on the items, evictions only grow, so that there are none at any step if
there are none in all. -/
theorem foldl_live {σ τ ι : Type} {m : Memory} (memory : σ → Memory) (view : σ → τ)
    {f : σ → ι → σ} {g : τ → ι → τ} (hkeeps : ∀ s item, Keeps (memory s) (memory (f s item)))
    (hstep : ∀ s item, Keeps m (memory s) →
      (memory s).lru.evictions ≤ (memory (f s item)).lru.evictions ∧
        ((memory (f s item)).lru.evictions = (memory s).lru.evictions →
          view (f s item) = g (view s) item))
    (items : List ι) {s : σ} (hs : Keeps m (memory s)) :
    (memory s).lru.evictions ≤ (memory (items.foldl f s)).lru.evictions ∧
      ((memory (items.foldl f s)).lru.evictions = (memory s).lru.evictions →
        view (items.foldl f s) = items.foldl g (view s)) := by
  induction items generalizing s with
  | nil => exact ⟨Nat.le_refl _, fun _ => rfl⟩
  | cons item items ih =>
    obtain ⟨hmore, hfirst⟩ := hstep s item hs
    obtain ⟨hrest, hall⟩ := ih (hs.trans (hkeeps s item))
    refine ⟨Nat.le_trans hmore hrest, fun hnone => ?_⟩
    have hsame := Nat.le_antisymm (hnone ▸ hrest) hmore
    rw [List.foldl_cons, List.foldl_cons, ← hfirst hsame]
    exact hall (hnone.trans hsame.symm)

/-- Merges the next record of a batch. -/
def mergeNext (now : Instant) (headers : Headers) (merger : Merger) (result : NameSet × Memory)
    (incoming : Record) : NameSet × Memory :=
  let step := mergeOne now headers merger result.2 incoming
  (result.1 ∪ step.1, step.2)

variable {m : Memory} (now : Instant) (headers : Headers) (merger : Merger)

theorem keeps_mergeNext (result : NameSet × Memory) (incoming : Record) :
    Keeps result.2 (mergeNext now headers merger result incoming).2 :=
  keeps_mergeOne result.2 now headers merger incoming

/-- A batch is merged into a view of the tier if each record is, unless something is evicted. -/
theorem merge_view (view : Memory → Contents) (hnext : ∀ m', Keeps m m' → ∀ paths incoming,
      let next := mergeNext now headers merger (paths, m') incoming
      m'.lru.evictions ≤ next.2.lru.evictions ∧
        (next.2.lru.evictions = m'.lru.evictions →
          (next.1, view next.2) = Contents.mergeOne headers merger (paths, view m')
            (incoming.stamped m'.config.trackDates headers))) (records : List Record) :
    m.lru.evictions ≤ (m.merge now records headers merger).2.lru.evictions ∧
      ((m.merge now records headers merger).2.lru.evictions = m.lru.evictions →
        ((m.merge now records headers merger).1, view (m.merge now records headers merger).2) =
          (view m).merge headers merger
            (records.map (Record.stamped m.config.trackDates headers))) := by
  have hstart : Keeps m ((∅, m) : NameSet × Memory).2 := Keeps.refl m
  rw [Contents.merge, List.foldl_map]
  refine foldl_live Prod.snd (fun result => (result.1, view result.2))
    (keeps_mergeNext now headers merger) (fun result incoming hresult => ?_) records hstart
  rw [← hresult.config]
  exact hnext result.2 hresult result.1 incoming

section Write

variable (hvalid : m.lru.Valid) (hexpire : m.lru.expireAfter ≠ some ⟨0⟩)

include hvalid hexpire

theorem put_live (key : Key) (r : Record) : m.lru.evictions ≤ (m.put now key r).lru.evictions ∧
    ((m.put now key r).lru.evictions = m.lru.evictions →
      (m.put now key r).live now = (m.live now).insert key r) :=
  Lru.live_insert hvalid hexpire key r

/-- Records that are put without an eviction are the live ones from then on. -/
theorem foldl_put_live (records : List Record) :
    let after := records.foldl (fun m r => m.put now r.key r) m
    m.lru.evictions ≤ after.lru.evictions ∧ (after.lru.evictions = m.lru.evictions →
      after.live now = records.foldl (fun c r => c.insert r.key r) (m.live now)) := by
  refine foldl_live id (live · now) (fun m r => keeps_put m now rfl) (fun m' r hm' => ?_) records
    (Keeps.refl m)
  obtain ⟨hvalid', hsettings, -⟩ := hm'.lru hvalid
  exact put_live now hvalid' (hsettings.expireAfter ▸ hexpire) r.key r

theorem mergeNext_live (paths : NameSet) (incoming : Record) :
    let next := mergeNext now headers merger (paths, m) incoming
    m.lru.evictions ≤ next.2.lru.evictions ∧
      (next.2.lru.evictions = m.lru.evictions →
        (next.1, next.2.live now) = Contents.mergeOne headers merger (paths, m.live now)
          (incoming.stamped m.config.trackDates headers)) := by
  have hput := put_live now hvalid hexpire
  have hfind (key : Key) : m.lru.peek now key = (m.live now).find? key :=
    (Lru.find?_live m.lru now key).symm
  dsimp only
  rw [mergeNext, mergeOne, Contents.mergeOne, hfind]
  cases (m.live now).find? (incoming.stamped m.config.trackDates headers).key with
  | none => exact ⟨(hput _ _).1, fun hnone => congrArg (Prod.mk _) ((hput _ _).2 hnone)⟩
  | some existing => exact ⟨(hput _ _).1, fun hnone => congrArg (Prod.mk _) ((hput _ _).2 hnone)⟩

/-- **Merging in memory.** A batch that evicts nothing is merged into the live records. -/
theorem merge_live (records : List Record) :
    m.lru.evictions ≤ (m.merge now records headers merger).2.lru.evictions ∧
      ((m.merge now records headers merger).2.lru.evictions = m.lru.evictions →
        ((m.merge now records headers merger).1, (m.merge now records headers merger).2.live now) =
          (m.live now).merge headers merger
            (records.map (Record.stamped m.config.trackDates headers))) := by
  refine merge_view now headers merger (live · now) (fun m' hm' paths incoming => ?_) records
  obtain ⟨hvalid', hsettings, -⟩ := hm'.lru hvalid
  exact mergeNext_live now headers merger hvalid' (hsettings.expireAfter ▸ hexpire) paths incoming

end Write

end RecordCache.Memory
