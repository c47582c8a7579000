import RecordCache.Memory
import RecordCache.Proofs.Lru.Operations

/-!
# The state of a memory tier

Every operation of a memory tier is made of operations of its cache, so that it keeps the state
valid, the settings as they are, and what holds of all records, if it holds of those that come in.

* `Memory.KeepsAll` says so of two tiers, with `KeepsAll.load`, `KeepsAll.merge` and their like;
* `Memory.Keeps` is the case of records that are under their own keys: nothing has to be asked of
  what comes in (`keeps_load`, `keeps_put`, `keeps_merge`, `keeps_removeKeys` and their like);
* `Memory.removeQueue_visited`, `removeQueue_none`, `removeQueue_some`: one key of a removal.
-/

namespace RecordCache.Memory

/-- The record is under its own key. -/
def IsKeyed (key : Key) (r : Record) : Prop := r.key = key

/-- From a valid state the second tier is valid, its settings are those of the first, and records
are still under their own keys. -/
structure Keeps (m m' : Memory) : Prop where
  config : m'.config = m.config
  lru : Lru.Keeps IsKeyed m.lru m'.lru

/-- The same of anything that may hold of all records. -/
structure KeepsAll (P : Key → Record → Prop) (m m' : Memory) : Prop where
  config : m'.config = m.config
  lru : Lru.Keeps P m.lru m'.lru

variable {P : Key → Record → Prop}

theorem KeepsAll.refl (m : Memory) : KeepsAll P m m := ⟨rfl, .refl _⟩

theorem KeepsAll.trans {a b c : Memory} (hab : KeepsAll P a b) (hbc : KeepsAll P b c) :
    KeepsAll P a c :=
  ⟨hbc.config.trans hab.config, hab.lru.trans hbc.lru⟩

theorem KeepsAll.keeps {m m' : Memory} (h : KeepsAll IsKeyed m m') : Keeps m m' := ⟨h.config, h.lru⟩

theorem KeepsAll.load (m : Memory) (now : Instant) (evict : Bool) (key : Key) :
    KeepsAll P m (m.load now evict key).2 := by
  have hget := Lru.keeps_get (P := P) m.lru now key
  rw [Memory.load]
  split
  · rename_i r lru hread
    rw [hread] at hget
    refine ⟨rfl, hget.trans ?_⟩
    cases evict with
    | true => exact Lru.keeps_remove lru now key
    | false => exact .refl lru
  · rename_i lru hread
    rw [hread] at hget
    exact ⟨rfl, hget⟩

theorem KeepsAll.loadAll (m : Memory) (now : Instant) (evict : Bool) (keys : List Key)
    (found : Found) : KeepsAll P m (m.loadAll now evict keys found).2 := by
  induction keys generalizing m found with
  | nil => exact .refl m
  | cons key keys ih =>
    have hload := KeepsAll.load (P := P) m now evict key
    rw [Memory.loadAll]
    split <;> rename_i hread <;> rw [hread] at hload <;> exact hload.trans (ih _ _)

theorem KeepsAll.put (m : Memory) (now : Instant) {key : Key} {r : Record} (hr : P key r) :
    KeepsAll P m (m.put now key r) :=
  ⟨rfl, Lru.keeps_insert m.lru now hr⟩

theorem KeepsAll.foldl_put (m : Memory) (now : Instant) {records : List Record}
    (hrecords : ∀ r ∈ records, P r.key r) :
    KeepsAll P m (records.foldl (fun m r => m.put now r.key r) m) := by
  induction records generalizing m with
  | nil => exact .refl m
  | cons r records ih =>
    obtain ⟨hr, hrest⟩ := List.forall_mem_cons.1 hrecords
    exact (put m now hr).trans (ih _ hrest)

/-- A record of which the property holds, merged with one of which it holds. -/
theorem KeepsAll.mergeOne (m : Memory) (now : Instant) {headers : Headers} {merger : Merger}
    {incoming : Record} (hincoming : ∀ trackDates,
      let stamped := incoming.stamped trackDates headers
      P stamped.key stamped ∧ ∀ existing, P stamped.key existing →
        let merged := (merger.merge existing stamped headers).record
        P merged.key merged) :
    KeepsAll P m (mergeOne now headers merger m incoming).2 := by
  obtain ⟨hstamped, hmerged⟩ := hincoming m.config.trackDates
  rw [Memory.mergeOne]
  cases hpeek : m.lru.peek now (incoming.stamped m.config.trackDates headers).key with
  | none => exact put m now hstamped
  | some existing =>
    refine ⟨rfl, fun hvalid => ?_⟩
    -- that the state stays valid does not depend on the property, which the stored record may lack
    obtain ⟨hvalid', hsettings, -⟩ :=
      Lru.keeps_insert (P := fun _ _ => True) m.lru now trivial hvalid
    refine ⟨hvalid', hsettings, fun hall => ?_⟩
    exact (Lru.keeps_insert m.lru now (hmerged existing (hall.of_peek hpeek)) hvalid).2.2 hall

theorem KeepsAll.merge (m : Memory) (now : Instant) {records : List Record} {headers : Headers}
    {merger : Merger} (hrecords : ∀ incoming ∈ records, ∀ trackDates,
      let stamped := incoming.stamped trackDates headers
      P stamped.key stamped ∧ ∀ existing, P stamped.key existing →
        let merged := (merger.merge existing stamped headers).record
        P merged.key merged) :
    KeepsAll P m (m.merge now records headers merger).2 := by
  refine List.foldlRecOn (motive := fun result : NameSet × Memory => KeepsAll P m result.2)
    records _ (.refl m) ?_
  exact fun result hresult incoming hmem =>
    hresult.trans (mergeOne result.2 now (hrecords incoming hmem))

section RemoveQueue

variable {lru lru' : Lru Key Record} {now : Instant} {cascade : Bool} {visited : SortedSet Key}
  {key : Key} {queue : List Key} {removed : Nat}

/-- A key that was visited before is passed over. -/
theorem removeQueue_visited (hkey : visited.contains key = true) :
    removeQueue lru now cascade visited (key :: queue) removed =
      removeQueue lru now cascade visited queue removed := by
  rw [removeQueue, if_pos hkey]

/-- Another key is visited, under which there is nothing. -/
theorem removeQueue_none (hkey : ¬visited.contains key = true)
    (hremove : lru.remove now key = (none, lru')) :
    removeQueue lru now cascade visited (key :: queue) removed =
      removeQueue lru' now cascade (visited.insert key) queue removed := by
  rw [removeQueue, if_neg hkey]
  split
  · rename_i other hother
    rw [hremove] at hother
    cases hother
    rfl
  · rename_i r other hother
    rw [hremove] at hother
    cases hother

/-- Another key is visited, whose record goes. What this refers to is put into the queue. -/
theorem removeQueue_some {r : Record} (hkey : ¬visited.contains key = true)
    (hremove : lru.remove now key = (some r, lru')) :
    let references := if cascade then
      r.referencedKeys.toList.filter fun next => !(visited.insert key).contains next else []
    removeQueue lru now cascade visited (key :: queue) removed =
      removeQueue lru' now cascade (visited.insert key) (queue ++ references) (removed + 1) := by
  intro references
  rw [removeQueue, if_neg hkey]
  split
  · rename_i other hother
    rw [hremove] at hother
    cases hother
  · rename_i r' other hother
    rw [hremove] at hother
    cases hother
    rfl

end RemoveQueue

theorem keeps_removeQueue (lru : Lru Key Record) (now : Instant) (cascade : Bool)
    (visited : SortedSet Key) (queue : List Key) (removed : Nat) :
    Lru.Keeps P lru (removeQueue lru now cascade visited queue removed).2 := by
  induction lru, visited, queue, removed using removeQueue.induct now cascade with
  | case1 lru visited removed =>
    rw [removeQueue]
    exact .refl lru
  | case2 lru visited removed key queue hvisited ih =>
    rw [removeQueue_visited hvisited]
    exact ih
  | case3 lru visited removed key queue hvisited lru' hremove ih =>
    have hkeeps := Lru.keeps_remove (P := P) lru now key
    rw [hremove] at hkeeps
    rw [removeQueue_none hvisited hremove]
    exact hkeeps.trans ih
  | case4 lru visited removed key queue hvisited r lru' hremove visited' references ih =>
    have hkeeps := Lru.keeps_remove (P := P) lru now key
    rw [hremove] at hkeeps
    rw [removeQueue_some hvisited hremove]
    exact hkeeps.trans ih

theorem KeepsAll.removeKeys (m : Memory) (now : Instant) (keys : List Key) (cascade : Bool) :
    KeepsAll P m (m.removeKeys now keys cascade).2 :=
  ⟨rfl, keeps_removeQueue m.lru now cascade ∅ keys 0⟩

theorem KeepsAll.removeWhere (m : Memory) (now : Instant) (matching : Key → Record → Bool) :
    KeepsAll P m (m.removeWhere now matching).2 :=
  ⟨rfl, Lru.keeps_removeWhere m.lru now matching⟩

theorem KeepsAll.clear (m : Memory) : KeepsAll P m m.clear := ⟨rfl, Lru.keeps_clear m.lru⟩

/-! ### Records under their own keys -/

theorem Keeps.refl (m : Memory) : Keeps m m := (KeepsAll.refl m).keeps

theorem Keeps.trans {a b c : Memory} (hab : Keeps a b) (hbc : Keeps b c) : Keeps a c :=
  ⟨hbc.config.trans hab.config, hab.lru.trans hbc.lru⟩

theorem keeps_load (m : Memory) (now : Instant) (evict : Bool) (key : Key) :
    Keeps m (m.load now evict key).2 :=
  (KeepsAll.load m now evict key).keeps

theorem keeps_loadAll (m : Memory) (now : Instant) (evict : Bool) (keys : List Key)
    (found : Found) : Keeps m (m.loadAll now evict keys found).2 :=
  (KeepsAll.loadAll m now evict keys found).keeps

theorem keeps_put (m : Memory) (now : Instant) {key : Key} {r : Record} (hkey : r.key = key) :
    Keeps m (m.put now key r) :=
  (KeepsAll.put (P := IsKeyed) m now hkey).keeps

theorem keeps_foldl_put (m : Memory) (now : Instant) (records : List Record) :
    Keeps m (records.foldl (fun m r => m.put now r.key r) m) :=
  (KeepsAll.foldl_put (P := IsKeyed) m now fun _ _ => rfl).keeps

theorem keeps_mergeOne (m : Memory) (now : Instant) (headers : Headers) (merger : Merger)
    (incoming : Record) : Keeps m (mergeOne now headers merger m incoming).2 :=
  (KeepsAll.mergeOne (P := IsKeyed) m now fun _ => ⟨rfl, fun _ _ => rfl⟩).keeps

theorem keeps_merge (m : Memory) (now : Instant) (records : List Record) (headers : Headers)
    (merger : Merger) : Keeps m (m.merge now records headers merger).2 :=
  (KeepsAll.merge (P := IsKeyed) m now fun _ _ _ => ⟨rfl, fun _ _ => rfl⟩).keeps

theorem keeps_removeKeys (m : Memory) (now : Instant) (keys : List Key) (cascade : Bool) :
    Keeps m (m.removeKeys now keys cascade).2 :=
  (KeepsAll.removeKeys m now keys cascade).keeps

theorem keeps_removeWhere (m : Memory) (now : Instant) (matching : Key → Record → Bool) :
    Keeps m (m.removeWhere now matching).2 :=
  (KeepsAll.removeWhere m now matching).keeps

theorem keeps_clear (m : Memory) : Keeps m m.clear := (KeepsAll.clear m).keeps

end RecordCache.Memory
