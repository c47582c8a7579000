import RecordCache.Proofs.Chain.Sound
import RecordCache.Proofs.Memory.Live
import RecordCache.Proofs.Memory.Removal
import RecordCache.Proofs.Store.Written

/-!
# Removed records

A record that was removed from every tier comes back only when a record of its key is merged. Reads
copy records from tier to tier, and records go for their age or for want of room from single tiers,
but what no tier has none can give to another.

* `Chain.Lacks` says that no tier has a record under a key;
* `Chain.lacks_load`, `lacks_merge` and their like: what each call keeps of this, by induction on
  the tiers, and `Chain.lacks_after` a whole run;
* `Chain.ShowsNone`: no read of such a chain shows a record of the key (`Chain.Lacks.showsNone`);
* `Chain.gone_removeKeys`, `gone_removeMatched`, `gone_clear`: what is left by a removal that
  reports nothing;
* `Chain.removed_stay_removed`: a removal, and any run after it.
-/

namespace RecordCache

/-! ### One tier -/

/-- The record is under its own key, and not under this one. -/
def Memory.Elsewhere (key k : Key) (r : Record) : Prop := r.key = k ∧ k ≠ key

/-- What keeps the records elsewhere brings none to the key. -/
theorem Memory.KeepsAll.lacks {m m' : Memory} {key : Key} (h : KeepsAll (Elsewhere key) m m')
    (hm : m.Sound) (hlacks : m.lru.entries.find? key = none) :
    m'.lru.entries.find? key = none := by
  have hall : m.lru.All (Elsewhere key) := by
    intro k entry hfind
    refine ⟨hm.keyed k entry hfind, ?_⟩
    rintro rfl
    rw [hlacks] at hfind
    cases hfind
  obtain ⟨-, -, hkept⟩ := h.lru hm.valid
  cases hfind : m'.lru.entries.find? key with
  | none => rfl
  | some entry => exact absurd rfl (hkept hall key entry hfind).2

/-- The merger gives the merged record the key of the stored one. -/
def Merger.KeepsKeys (merger : Merger) : Prop :=
  ∀ existing incoming headers, (merger.merge existing incoming headers).record.key = existing.key

theorem Memory.KeepsAll.merge_elsewhere (m : Memory) (now : Instant) {records : List Record}
    {headers : Headers} {merger : Merger} {key : Key} (hmerger : merger.KeepsKeys)
    (hrecords : ∀ r ∈ records, r.key ≠ key) :
    KeepsAll (Elsewhere key) m (m.merge now records headers merger).2 := by
  refine .merge m now fun incoming hincoming trackDates => ?_
  have hother : (incoming.stamped trackDates headers).key ≠ key := by
    rw [Record.key_stamped]
    exact hrecords incoming hincoming
  refine ⟨⟨rfl, hother⟩, fun existing hexisting => ⟨rfl, ?_⟩⟩
  rw [hmerger, hexisting.1]
  exact hother

/-- What a memory tier finds of a batch is not of a key that it has not. -/
theorem Memory.ne_of_loadAll {m : Memory} {key : Key} (hm : m.Sound)
    (hlacks : m.lru.entries.find? key = none) {now : Instant} {evict : Bool} {keys : List Key}
    {k : Key} {r : Record} (hr : (m.loadAll now evict keys ⟨∅, []⟩).1.records.find? k = some r) :
    r.key ≠ key := by
  rw [(m.loadAll_live now evict keys ⟨∅, []⟩).1 k, Option.or_eq_some_iff] at hr
  obtain hr | ⟨-, hr⟩ := hr
  · have hlive := (Option.ite_none_right_eq_some.1 hr).2
    rw [Memory.live, Lru.find?_live] at hlive
    rw [hm.keyed.of_peek hlive]
    rintro rfl
    rw [Lru.peek, hlacks] at hlive
    cases hlive
  · cases hr

namespace Store

variable {s : Store} {key : Key}

/-- A load gives records that have a row. -/
theorem ne_of_load (hlacks : key ∉ s.database.rowKeys) {keys : List Key} {headers : Headers}
    {r : Record} (hr : r ∈ (s.load keys headers).value) : r.key ≠ key := by
  rcases s.load_value keys headers with hnone | ⟨records, hselect, hvalue⟩
  · rw [hnone] at hr
    cases hr
  · have hfound := s.database.select_detects s.config.maxParameters keys
    rw [hselect] at hfound
    rw [hvalue, Batch.inOrder_eq, List.mem_filterMap] at hr
    obtain ⟨k, -, hr⟩ := hr
    obtain ⟨-, hread⟩ := hfound.2.find?_byKey_iff.1 hr
    rw [Database.key_of_read? hread]
    rintro rfl
    exact hlacks (Database.mem_rowKeys hread)

/-- Records that were read come from rows. -/
theorem mem_of_mapM_decode {rows : List Row} {records : List Record}
    (h : rows.mapM Row.decode = .ok records) {r : Record} (hr : r ∈ records) :
    r.key ∈ rows.map Row.key := by
  induction rows generalizing records with
  | nil =>
    cases h
    cases hr
  | cons row rows ih =>
    rw [List.mapM_cons] at h
    obtain ⟨first, hfirst, h⟩ := ok_of_bind h
    obtain ⟨rest, hrest, h⟩ := ok_of_bind h
    cases h
    rw [List.map_cons, List.mem_cons]
    rcases List.mem_cons.1 hr with rfl | hr
    · exact .inl (Table.decode_key hfirst).1
    · exact .inr (ih hrest hr)

/-- A dump shows records that have a row. -/
theorem ne_of_dump (hlacks : key ∉ s.database.rowKeys) {k : Key} {r : Record}
    (hr : s.dump.value.find? k = some r) : r.key = k ∧ k ≠ key := by
  unfold dump run at hr
  split at hr
  · rename_i records db hdump
    obtain ⟨found, hselect, hdump⟩ := ok_of_bind hdump
    cases hdump
    have hkey : r.key = k := Batch.keyed_byKey found k r hr
    refine ⟨hkey, ?_⟩
    rw [Batch.find?_byKey] at hr
    have hmem : r ∈ found := List.mem_reverse.1 (List.mem_of_find?_eq_some hr)
    obtain ⟨table, htable, hrows⟩ := ok_of_bind hselect
    rintro rfl
    refine hlacks ?_
    unfold Database.requireTable at htable
    split at htable
    · rename_i table' hsome
      cases htable
      rw [Database.rowKeys, hsome, ← hkey]
      exact mem_of_mapM_decode hrows hmem
    · cases htable
  · cases hr

end Store

namespace Chain

/-! ### All tiers -/

/-- No tier has a record under the key, not even one that has expired or cannot be read. -/
def Lacks (key : Key) : Chain → Prop
  | empty => True
  | store s => key ∉ s.database.rowKeys
  | memory m next => m.lru.entries.find? key = none ∧ next.Lacks key

variable {chain : Chain} {key : Key} (now : Instant)

/-- A read gives no record of the key, so that there is none to write back. -/
theorem lacks_load (h : chain.Sound) (hlacks : chain.Lacks key) (asked : Key) (headers : Headers) :
    (chain.load now asked headers).state.Lacks key ∧
      ∀ r, (chain.load now asked headers).value = some r → r.key ≠ key := by
  induction chain with
  | empty => exact ⟨trivial, fun r hr => by cases hr⟩
  | store s =>
    refine ⟨fun hkey => hlacks ((s.thinned_load [asked] headers).mem_rowKeys hkey), fun r hr => ?_⟩
    exact Store.ne_of_load hlacks (List.mem_of_mem_head? hr)
  | memory m next ih =>
    obtain ⟨hm, hnext⟩ := h
    obtain ⟨hnone, hbehind⟩ := hlacks
    obtain ⟨hstate, hvalue⟩ := ih hnext hbehind
    have hasked := (sound_load now hnext asked headers).2
    have hkeeps := Memory.KeepsAll.load (P := Memory.Elsewhere key) m now
      (headers.has Headers.evictAfterRead) asked
    have hsound := hm.keeps (Memory.keeps_load m now (headers.has Headers.evictAfterRead) asked)
    have hleft := hkeeps.lacks hm hnone
    cases hpeek : m.lru.peek now asked with
    | some r =>
      -- found here: the tiers behind are not asked
      rw [load_hit headers hpeek]
      refine ⟨⟨hleft, hbehind⟩, fun r' hr => ?_⟩
      cases hr
      rw [hm.keyed.of_peek hpeek]
      rintro rfl
      rw [Lru.peek, hnone] at hpeek
      cases hpeek
    | none =>
      -- found behind, and perhaps written back
      rw [load_miss headers hpeek]
      refine ⟨⟨?_, hstate⟩, hvalue⟩
      cases hfound : (next.load now asked headers).value with
      | none => exact hleft
      | some r =>
        rw [Option.elim_some]
        split
        · exact hleft
        · have hput : Memory.Elsewhere key asked r :=
            ⟨hasked r hfound, hasked r hfound ▸ hvalue r hfound⟩
          exact (Memory.KeepsAll.put _ now hput).lacks hsound hleft

theorem lacks_loadAll (h : chain.Sound) (hlacks : chain.Lacks key) (keys : List Key)
    (headers : Headers) :
    (chain.loadAll now keys headers).state.Lacks key ∧
      ∀ r ∈ (chain.loadAll now keys headers).value, r.key ≠ key := by
  induction chain generalizing keys with
  | empty => exact ⟨trivial, List.forall_mem_nil _⟩
  | store s =>
    refine ⟨fun hkey => hlacks ((s.thinned_load keys headers).mem_rowKeys hkey), fun r hr => ?_⟩
    exact Store.ne_of_load hlacks hr
  | memory m next ih =>
    obtain ⟨hm, hnext⟩ := h
    obtain ⟨hnone, hbehind⟩ := hlacks
    have hkeeps := Memory.KeepsAll.loadAll (P := Memory.Elsewhere key) m now
      (headers.has Headers.evictAfterRead) keys ⟨∅, []⟩
    have hsound := hm.keeps
      (Memory.keeps_loadAll m now (headers.has Headers.evictAfterRead) keys ⟨∅, []⟩)
    have hleft := hkeeps.lacks hm hnone
    have hfound {k : Key} {r : Record}
        (hr : (m.loadAll now (headers.has Headers.evictAfterRead) keys
          ⟨∅, []⟩).1.records.find? k = some r) : r.key ≠ key :=
      Memory.ne_of_loadAll hm hnone hr
    rw [loadAll]
    dsimp only
    split
    · -- all keys were found here
      refine ⟨⟨hleft, hbehind⟩, fun r hr => ?_⟩
      obtain ⟨k, -, hr⟩ := List.mem_filterMap.1 (Batch.inOrder_eq _ keys ▸ hr)
      exact hfound hr
    · -- the others come from behind, and those are written back
      obtain ⟨hstate, hvalue⟩ := ih hnext hbehind
        (m.loadAll now (headers.has Headers.evictAfterRead) keys ⟨∅, []⟩).1.missing
      refine ⟨⟨?_, hstate⟩, fun r hr => ?_⟩
      · split
        · exact hleft
        · exact (Memory.KeepsAll.foldl_put _ now fun r hr => ⟨rfl, hvalue r hr⟩).lacks hsound hleft
      · obtain ⟨k, -, hr⟩ := List.mem_filterMap.1 (Batch.inOrder_eq _ keys ▸ hr)
        rw [Batch.find?_foldl_put, Option.or_eq_some_iff] at hr
        rcases hr with hr | ⟨-, hr⟩
        · rw [Batch.find?_byKey] at hr
          exact hvalue r (List.mem_reverse.1 (List.mem_of_find?_eq_some hr))
        · exact hfound hr

theorem lacks_merge (h : chain.Sound) (hlacks : chain.Lacks key) {records : List Record}
    (headers : Headers) {merger : Merger} (hmerger : merger.KeepsKeys)
    (hrecords : ∀ r ∈ records, r.key ≠ key) :
    (chain.merge now records headers merger).state.Lacks key := by
  induction chain with
  | empty => exact trivial
  | store s =>
    intro hkey
    rcases (s.merge_rows now records headers merger).mem_rowKeys hkey with hold | hwritten
    · exact hlacks hold
    · obtain ⟨r, hr, rfl⟩ := List.mem_map.1
        (Store.mem_keys_of_written (fun _ _ => hmerger _ _ _) hwritten)
      exact hrecords r hr rfl
  | memory m next ih =>
    rw [merge]
    split
    · exact hlacks
    · exact ⟨(Memory.KeepsAll.merge_elsewhere m now hmerger hrecords).lacks h.1 hlacks.1,
        ih h.2 hlacks.2⟩

/-- A call that takes something away in each tier. -/
theorem Lacks.of_removal {α : Type} {f : Chain → Outcome Chain α} {onMemory : Memory → Memory}
    {onStore : Store → Store} (hempty : (f empty).state = empty)
    (hstore : ∀ s, (f (store s)).state = store (onStore s) ∧ s.Thinned (onStore s))
    (hmemory : ∀ m next, (f (memory m next)).state = memory (onMemory m) (f next).state ∧
      Memory.KeepsAll (Memory.Elsewhere key) m (onMemory m))
    (h : chain.Sound) (hlacks : chain.Lacks key) : (f chain).state.Lacks key := by
  induction chain with
  | empty =>
    rw [hempty]
    exact trivial
  | store s =>
    obtain ⟨hstate, hthinned⟩ := hstore s
    rw [hstate]
    exact fun hkey => hlacks (hthinned.mem_rowKeys hkey)
  | memory m next ih =>
    obtain ⟨hstate, hkeeps⟩ := hmemory m next
    rw [hstate]
    exact ⟨hkeeps.lacks h.1 hlacks.1, ih h.2 hlacks.2⟩

theorem lacks_removeKeys (h : chain.Sound) (hlacks : chain.Lacks key) (keys : List Key)
    (cascade : Bool) : (chain.removeKeys now keys cascade).state.Lacks key :=
  .of_removal (f := (removeKeys now keys cascade ·)) rfl
    (fun s => ⟨rfl, s.thinned_removeKeys keys cascade⟩)
    (fun m _ => ⟨rfl, .removeKeys m now keys cascade⟩) h hlacks

theorem lacks_removeMatched (h : chain.Sound) (hlacks : chain.Lacks key) (pattern : Pattern) :
    (chain.removeMatched now pattern).state.Lacks key :=
  .of_removal (f := (removeMatched now pattern ·)) rfl
    (fun s => ⟨rfl, s.thinned_removeMatching pattern⟩)
    (fun m _ => ⟨rfl, .removeWhere m now fun key _ => pattern.accepts key⟩) h hlacks

theorem lacks_removeTypes (h : chain.Sound) (hlacks : chain.Lacks key) (types : List String) :
    (chain.removeTypes now types).state.Lacks key :=
  .of_removal (f := (removeTypes now types ·)) rfl (fun s => ⟨rfl, s.thinned_removeTypes types⟩)
    (fun m _ => ⟨rfl, .removeWhere m now fun _ r => types.contains r.typeName⟩) h hlacks

theorem lacks_clear (h : chain.Sound) (hlacks : chain.Lacks key) : chain.clear.state.Lacks key :=
  .of_removal (f := clear) rfl (fun s => ⟨rfl, s.thinned_clear⟩) (fun m _ => ⟨rfl, .clear m⟩) h
    hlacks

theorem lacks_dump (h : chain.Sound) (hlacks : chain.Lacks key) :
    (chain.dump now).state.Lacks key :=
  .of_removal (f := (dump now ·)) rfl (fun s => ⟨rfl, s.thinned_dump⟩)
    (fun m _ => ⟨rfl, .refl m⟩) h hlacks

theorem lacks_trim (h : chain.Sound) (hlacks : chain.Lacks key) (maxSize : Nat)
    (factor : Binary64) (sizes : FileSizes) :
    (chain.trim maxSize factor sizes).state.Lacks key :=
  .of_removal (f := trim maxSize factor sizes) rfl
    (fun s => ⟨rfl, s.thinned_trim maxSize factor sizes⟩)
    (fun m _ => ⟨rfl, .refl m⟩) h hlacks

end Chain

/-- A command that merges no record of the key, as long as mergers keep keys. -/
def Command.Spares (key : Key) : Command → Prop
  | .merge records _ merger => merger.KeepsKeys ∧ ∀ r ∈ records, r.key ≠ key
  | _ => True

namespace Chain

variable {chain : Chain} {key : Key} (now : Instant)

theorem lacks_run (h : chain.Sound) (hlacks : chain.Lacks key) {command : Command}
    (hspares : command.Spares key) : (chain.run now command).state.Lacks key := by
  cases command with
  | load asked headers => exact (lacks_load now h hlacks asked headers).1
  | loadAll keys headers => exact (lacks_loadAll now h hlacks keys headers).1
  | merge records headers merger => exact lacks_merge now h hlacks headers hspares.1 hspares.2
  | remove k cascade => exact lacks_removeKeys now h hlacks [k] cascade
  | removeAll keys cascade => exact lacks_removeKeys now h hlacks keys cascade
  | removeMatching source =>
    rw [run, removeMatching]
    cases Pattern.parse source with
    | error error => exact hlacks
    | ok pattern => exact lacks_removeMatched now h hlacks pattern
  | removeTypes types => exact lacks_removeTypes now h hlacks types
  | clear => exact lacks_clear h hlacks
  | dump => exact lacks_dump now h hlacks
  | trim maxSize factor sizes => exact lacks_trim h hlacks maxSize factor sizes
  | name => exact hlacks

/-- By induction on the run, which keeps the chain sound as well. -/
theorem lacks_after (h : chain.Sound) (hlacks : chain.Lacks key)
    {commands : List (Instant × Command)} (hspares : ∀ timed ∈ commands, timed.2.Spares key) :
    (chain.after commands).Sound ∧ (chain.after commands).Lacks key :=
  after_induction (P := fun chain => chain.Sound ∧ chain.Lacks key)
    (fun _ now command hspares h => ⟨sound_run now h.1 command, lacks_run now h.1 h.2 hspares⟩)
    hspares ⟨h, hlacks⟩

/-- Whatever is read, no record of the key is shown. -/
structure ShowsNone (chain : Chain) (key : Key) : Prop where
  load : ∀ now asked headers r,
    (chain.load now asked headers).value = some r → asked ≠ key ∧ r.key ≠ key
  loadAll : ∀ now keys headers, ∀ r ∈ (chain.loadAll now keys headers).value, r.key ≠ key
  dump : ∀ now tier records k r, (chain.dump now).value.find? tier = some records →
    records.find? k = some r → k ≠ key ∧ r.key ≠ key

theorem ne_of_dump (h : chain.Sound) (hlacks : chain.Lacks key) {tier : String}
    {records : SortedMap Key Record} (hrecords : (chain.dump now).value.find? tier = some records)
    {k : Key} {r : Record} (hr : records.find? k = some r) : k ≠ key ∧ r.key ≠ key := by
  induction chain with
  | empty => cases hrecords
  | store s =>
    change (SortedMap.ofList [(Store.tierName, s.dump.value)]).find? tier = _ at hrecords
    rw [SortedMap.find?_ofList] at hrecords
    simp only [List.reverse_singleton, List.find?_singleton] at hrecords
    split at hrecords
    · cases hrecords
      obtain ⟨hkey, hne⟩ := Store.ne_of_dump hlacks hr
      exact ⟨hne, hkey ▸ hne⟩
    · cases hrecords
  | memory m next ih =>
    change ((next.dump now).value.insert Memory.tierName (m.dump now)).find? tier = _ at hrecords
    rw [SortedMap.find?_insert_eq] at hrecords
    split at hrecords
    · cases hrecords
      rw [Memory.dump, SortedMap.find?_ofList] at hr
      obtain ⟨pair, hpair, rfl⟩ := Option.map_eq_some_iff.1 hr
      have hmem : pair ∈ m.lru.snapshot now :=
        List.mem_reverse.1 (List.mem_of_find?_eq_some hpair)
      have hk : pair.1 = k := by simpa using List.find?_some hpair
      obtain ⟨listed, -, hlisted⟩ := List.mem_filterMap.1 hmem
      obtain ⟨r, hpeek, rfl⟩ := Option.map_eq_some_iff.1 hlisted
      have hother : listed ≠ key := by
        rintro rfl
        rw [Lru.peek, hlacks.1] at hpeek
        cases hpeek
      refine ⟨hk ▸ hother, ?_⟩
      rw [h.1.keyed.of_peek hpeek]
      exact hother
    · exact ih h.2 hlacks.2 hrecords

theorem Lacks.showsNone (h : chain.Sound) (hlacks : chain.Lacks key) : chain.ShowsNone key where
  load now asked headers r hr := by
    have hne := (lacks_load now h hlacks asked headers).2 r hr
    exact ⟨(sound_load now h asked headers).2 r hr ▸ hne, hne⟩
  loadAll now keys headers := (lacks_loadAll now h hlacks keys headers).2
  dump now _ _ _ _ hrecords hr := ne_of_dump now h hlacks hrecords hr

/-! ### Removals -/

theorem gone_removeKeys (chain : Chain) {keys : List Key} (hkey : key ∈ keys) (cascade : Bool)
    (hreports : (chain.removeKeys now keys cascade).reports = []) :
    (chain.removeKeys now keys cascade).state.Lacks key := by
  induction chain with
  | empty => exact trivial
  | store s => exact Store.removeKeys_gone hreports hkey
  | memory m next ih =>
    refine ⟨?_, ih hreports⟩
    obtain ⟨visited, hremoving⟩ := m.removeKeys_removing now keys cascade
    have hvisited : visited.contains key = true :=
      (hremoving.reached_iff key).1 (.given hkey)
    exact (hremoving.entries key).trans (if_pos hvisited)

/-- A removal by a pattern leaves a row that the glob does not find, and nothing else. -/
theorem gone_removeMatched (h : chain.Sound) {pattern : Pattern}
    (haccepts : pattern.accepts key = true)
    (hreports : (chain.removeMatched now pattern).reports = []) :
    (chain.removeMatched now pattern).state.Lacks key ↔ ∀ s, chain.store? = some s →
      key ∈ s.database.rowKeys → Glob.selects pattern.glob key = true := by
  induction chain with
  | empty => exact iff_of_true trivial fun s hs => by cases hs
  | store s =>
    change key ∉ (s.removeMatching pattern).state.database.rowKeys ↔ _
    rw [Store.removeMatching_keeping hreports,
      Database.mem_rowKeys_keeping_iff fun key => !Glob.selects pattern.glob key]
    simp [store?]
  | memory m next ih =>
    have hgone : (m.removeWhere now fun key _ => pattern.accepts key).2.lru.entries.find? key =
        none := by
      refine ((Lru.removeWhere_spec h.1.valid now fun key _ => pattern.accepts key).2 key).trans ?_
      simp [haccepts]
    exact (and_iff_right hgone).trans (ih h.2 hreports)

theorem gone_clear (chain : Chain) (hreports : chain.clear.reports = []) (key : Key) :
    chain.clear.state.Lacks key := by
  induction chain with
  | empty => exact trivial
  | store s => exact Store.clear_gone hreports key
  | memory m next ih => exact ⟨rfl, ih hreports⟩

end Chain

/-- The removals that are to take the record of a key away: those that name the key, those whose
pattern matches it, and those that take everything. -/
inductive Command.Targets (key : Key) : Command → Prop
  | remove (cascade : Bool) : Targets key (.remove key cascade)
  | removeAll {keys : List Key} (named : key ∈ keys) (cascade : Bool) :
      Targets key (.removeAll keys cascade)
  | removeMatching {source : String} {pattern : Pattern}
      (parsed : Pattern.parse source = .ok pattern) (accepted : pattern.accepts key = true) :
      Targets key (.removeMatching source)
  | clear : Targets key .clear

/-- The persistent tier has a row under the key that the glob of the pattern does not find. -/
def Chain.Overlooks (chain : Chain) (key : Key) : Command → Prop
  | .removeMatching source => ∃ pattern s, Pattern.parse source = .ok pattern ∧
      chain.store? = some s ∧ key ∈ s.database.rowKeys ∧ Glob.selects pattern.glob key = false
  | _ => False

/-- A removal takes a plain key by name, or by a plain glob. -/
def Command.IsPlain (key : Key) : Command → Prop
  | .removeMatching source => Glob.IsPlain key.text.toList ∧
      ∀ pattern, Pattern.parse source = .ok pattern → Glob.IsPlain pattern.glob.toList
  | _ => True

namespace Chain

variable {chain : Chain} {key : Key} (now : Instant)

/-- What a removal leaves that reports nothing. -/
theorem lacks_iff_of_targets (h : chain.Sound) {removal : Command} (htargets : removal.Targets key)
    (hreports : (chain.run now removal).reports = []) :
    (chain.run now removal).state.Lacks key ↔ ¬chain.Overlooks key removal := by
  cases htargets with
  | remove cascade =>
    exact iff_of_true (gone_removeKeys now chain (List.mem_singleton.2 rfl) cascade hreports) id
  | removeAll named cascade =>
    exact iff_of_true (gone_removeKeys now chain named cascade hreports) id
  | removeMatching parsed accepted =>
    unfold run removeMatching at hreports ⊢
    simp only [parsed] at hreports ⊢
    refine (gone_removeMatched now h accepted hreports).trans ?_
    simp only [Overlooks, parsed, Except.ok.injEq]
    constructor
    · rintro hselects ⟨pattern, s, rfl, hs, hkey, hnot⟩
      rw [hselects s hs hkey] at hnot
      cases hnot
    · intro hnone s hs hkey
      by_contra hnot
      exact hnone ⟨_, s, rfl, hs, hkey, Bool.not_eq_true _ ▸ hnot⟩
  | clear => exact iff_of_true (gone_clear chain hreports key) id

theorem not_overlooks_of_plain {removal : Command} (htargets : removal.Targets key)
    (hplain : removal.IsPlain key) : ¬chain.Overlooks key removal := by
  cases htargets with
  | removeMatching parsed accepted =>
    rintro ⟨pattern, s, hparse, -, -, hnot⟩
    rw [parsed] at hparse
    cases hparse
    rw [Glob.selects_of_plain (hplain.2 _ parsed) hplain.1, Pattern.accepts_glob, accepted] at hnot
    cases hnot
  | _ => exact id

/-- **Removed records stay removed.** A removal that reports nothing leaves no tier of the chain
with a record under a key that it is to remove, unless the persistent tier has a row under the key
that the glob of a pattern does not find: one of the two then has a character for which the table
does not compare texts as they are. Whenever no tier has one, no run of further commands brings one
back or shows one, until a record of the key is merged. -/
theorem removed_stay_removed (h : chain.Sound) {removal : Command} (htargets : removal.Targets key)
    (hreports : (chain.run now removal).reports = []) :
    let left := (chain.run now removal).state
    (left.Lacks key ↔ ¬chain.Overlooks key removal) ∧ (removal.IsPlain key → left.Lacks key) ∧
      (left.Lacks key → ∀ commands : List (Instant × Command),
        (∀ timed ∈ commands, timed.2.Spares key) →
          (left.after commands).Lacks key ∧ (left.after commands).ShowsNone key) := by
  intro left
  have hleft := lacks_iff_of_targets now h htargets hreports
  refine ⟨hleft, fun hplain => hleft.2 (not_overlooks_of_plain htargets hplain), ?_⟩
  intro hlacks commands hspares
  obtain ⟨hsound, hlater⟩ := lacks_after (sound_run now h removal) hlacks hspares
  exact ⟨hlater, hlater.showsNone hsound⟩

/-- Two memory tiers in front of a store, each with a record of a plain key and one of a key with a
null character, which a comparison takes for the end. -/
theorem removed_stay_removed_null_character :
    let record (name : String) : Record := (Record.new ⟨name⟩ "T").withField "x" (.int 1)
    let records := [record "ab", record "a\x00b"]
    let front (config : MemoryConfig) : Memory := ((Memory.new config Weigher.one).merge ⟨0⟩ records
      Headers.none Merger.overwrite).2
    let rows := records.map ((WriteDates.ofHeaders ⟨0⟩ Headers.none).row false)
    let chain := memory (front ⟨1, none, false⟩)
      (memory (front ⟨2, some ⟨Duration.second⟩, true⟩) (store ⟨{}, ⟨some ⟨rows, false⟩⟩⟩))
    let removal : Command := .removeMatching "%b"
    let left := (chain.run ⟨7⟩ removal).state
    (chain.Sound ∧ removal.Targets ⟨"ab"⟩ ∧ removal.Targets ⟨"a\x00b"⟩ ∧
      (chain.run ⟨7⟩ removal).reports = []) ∧
    ¬left.Lacks ⟨"a\x00b"⟩ ∧ left.Lacks ⟨"ab"⟩ ∧
      ∀ commands : List (Instant × Command), (∀ timed ∈ commands, timed.2.Spares ⟨"ab"⟩) →
        (left.after commands).Lacks ⟨"ab"⟩ ∧ (left.after commands).ShowsNone ⟨"ab"⟩ := by
  intro record records front rows chain removal left
  have hsound : chain.Sound :=
    ⟨(Memory.sound_new rfl _).keeps (Memory.keeps_merge ..),
      (Memory.sound_new rfl _).keeps (Memory.keeps_merge ..), trivial⟩
  let pattern : Pattern := ⟨"%b", [.anyRun, .literal 'b']⟩
  have hparse : Pattern.parse "%b" = .ok pattern := by decide +kernel
  have hplain : removal.Targets ⟨"ab"⟩ := .removeMatching hparse (by decide +kernel)
  have hnull : removal.Targets ⟨"a\x00b"⟩ := .removeMatching hparse (by decide +kernel)
  have hreports : (chain.run ⟨7⟩ removal).reports = [] := by decide +kernel
  obtain ⟨-, hgone, hstays⟩ := removed_stay_removed ⟨7⟩ hsound hplain hreports
  obtain ⟨hleft, -, -⟩ := removed_stay_removed ⟨7⟩ hsound hnull hreports
  have hlacks : left.Lacks ⟨"ab"⟩ := by
    refine hgone ⟨by decide +kernel, fun found hfound => ?_⟩
    rw [hparse] at hfound
    cases hfound
    decide +kernel
  refine ⟨⟨hsound, hplain, hnull, hreports⟩, fun hnone => ?_, hlacks, hstays hlacks⟩
  exact hleft.1 hnone ⟨pattern, _, hparse, rfl, by decide +kernel, by decide +kernel⟩

end Chain
end RecordCache
