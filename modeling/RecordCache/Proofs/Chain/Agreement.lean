import RecordCache.Proofs.Chain.Alone
import RecordCache.Proofs.Chain.Trace
import RecordCache.Proofs.Memory.Contents
import RecordCache.Proofs.Pattern.Glob
import RecordCache.Proofs.Store.Contents

/-!
# Memory and table, one by one

A memory tier that keeps all it is given and a persistent tier are the same store: given the same
commands, they give the same replies and hold the same records.

* `Command.Comparable` are the commands that both tiers serve alike: records that are read back as
  they were written, and patterns that the table applies as they are meant;
* `Chain.Paired` relates two tiers with the same contents;
* `Chain.load_agree`, `merge_agree`, `removeKeys_agree` and their like: one lemma for each
  operation;
* `Chain.trace_agree`: the two runs side by side.
-/

namespace RecordCache

/-- A command that a memory tier and a persistent one serve alike. Headers do not keep the
persistent tier out or ask for errors to be stored. Records have a field and one of the keys, hold
no floating-point number, and do not nest too deep to be read back; they are merged field by field.
The glob of a pattern is served as it is meant. -/
def Command.Comparable (K : Key → Prop) : Command → Prop
  | .load _ headers => headers.has Headers.memoryCacheOnly = false
  | .loadAll _ headers => headers.has Headers.memoryCacheOnly = false
  | .merge records headers merger =>
    headers.has Headers.memoryCacheOnly = false ∧
      headers.has Headers.errorsReplaceCachedValues = false ∧ merger ∈ Merger.fieldwise ∧
      ∀ r ∈ records, K r.key ∧ r.isEmpty = false ∧ r.IsExact ∧
        (Blob.ofRecord r).toJson.nesting ≤ Json.depthLimit
  | .removeMatching source => ∀ pattern, Pattern.parse source = .ok pattern →
    ∀ key, K key → Glob.Serves pattern.glob key
  | .remove _ _ => True
  | .removeAll _ _ => True
  | .removeTypes _ => True
  | .clear => True
  | .dump => False
  | .trim _ _ _ => False
  | .name => False

/-- Both calls give the same value and report the same, and leave the same records under the same
keys. -/
structure Outcome.Alike (remembered stored : Outcome Chain Reply) : Prop where
  value : remembered.value = stored.value
  reports : remembered.reports = stored.reports
  dumps : ∀ now, ∃ records,
    (remembered.state.dump now).value.find? Memory.tierName = some records ∧
      (stored.state.dump now).value.find? Store.tierName = some records

/-- Calls that are alike remove as many records. -/
theorem Outcome.Alike.count_eq {a : Chain} {s : Store} {now : Instant} {types : List String}
    (h : (a.run now (.removeTypes types)).Alike ((Chain.store s).run now (.removeTypes types))) :
    (a.removeTypes now types).value = (s.removeTypes types).value :=
  Reply.count.inj h.value

namespace Chain

variable {config : StoreConfig} {K : Key → Prop} {m m' : Memory} {s : Store} {c : Contents}

/-- A memory tier and a persistent one, with the same contents. -/
structure Paired (config : StoreConfig) (K : Key → Prop) (m : Memory) (s : Store) (c : Contents) :
    Prop where
  trackDates : m.config.trackDates = config.trackDates
  remembered : m.Holds c
  stored : s.Holds config c
  regular : c.Regular K

/-- The two calls give the same value, report nothing, and leave the same contents. -/
def Agree {α : Type} (config : StoreConfig) (K : Key → Prop) (remembered stored : Outcome Chain α) :
    Prop :=
  ∃ value m s c, remembered = ⟨value, memory m empty, []⟩ ∧ stored = ⟨value, store s, []⟩ ∧
    Paired config K m s c

theorem Agree.mapValue {α β : Type} {remembered stored : Outcome Chain α}
    (h : Agree config K remembered stored) (f : α → β) :
    Agree config K (remembered.mapValue f) (stored.mapValue f) := by
  obtain ⟨value, m, s, c, rfl, rfl, hpaired⟩ := h
  exact ⟨f value, m, s, c, rfl, rfl, hpaired⟩

/-- What is left in memory and in the table is put together. -/
theorem Paired.agree {α : Type} {value : α} {outcome : Outcome Store α} {c' : Contents}
    (h : Paired config K m s c) (hkeeps : Memory.Keeps m m') (hmemory : m'.Holds c')
    (hstore : Store.Answers config outcome value c')
    (hregular : c'.Regular K) :
    Agree config K ⟨value, memory m' empty, []⟩ (outcome.mapState store) := by
  obtain ⟨s', rfl, hs'⟩ := hstore
  exact ⟨value, m', s', c', rfl, rfl, hkeeps.config ▸ h.trackDates, hmemory, hs', hregular⟩

theorem paired_new {settings : MemoryConfig} (weigh : Weigher)
    (hdates : settings.trackDates = config.trackDates) (hlasting : settings.expireAfter = none) :
    Paired config K (Memory.new settings weigh) (Store.new config) ∅ :=
  ⟨hdates, Memory.holds_new weigh hlasting, Store.holds_new config, Contents.regular_empty⟩

section Operations

variable (h : Paired config K m s c) (now : Instant)
  (hlimit : config.maxParameters ≤ Database.maxParameters)

include h hlimit

theorem load_agree (key : Key) {headers : Headers}
    (hmemory : headers.has Headers.memoryCacheOnly = false) :
    Agree config K ((memory m empty).load now key headers) ((store s).load now key headers) := by
  obtain ⟨hfound, hholds⟩ :=
    Memory.load_eq h.remembered now (headers.has Headers.evictAfterRead) key
  have hanswers := Store.load_answers h.stored h.regular.keyed hlimit [key] hmemory
  have hagree := (h.agree (Memory.keeps_load m now _ key) hholds hanswers
    (h.regular.afterReading _ _)).mapValue List.head?
  rw [load_alone, hfound, ← Store.head?_inOrder]
  exact hagree

theorem loadAll_agree (keys : List Key) {headers : Headers}
    (hmemory : headers.has Headers.memoryCacheOnly = false) :
    Agree config K ((memory m empty).loadAll now keys headers)
      ((store s).loadAll now keys headers) := by
  obtain ⟨hrecords, hholds⟩ :=
    Memory.loadAll_eq h.remembered now (headers.has Headers.evictAfterRead) keys ⟨∅, []⟩
  have hanswers := Store.load_answers h.stored h.regular.keyed hlimit keys hmemory
  have hagree := h.agree (Memory.keeps_loadAll m now _ keys ⟨∅, []⟩) hholds hanswers
    (h.regular.afterReading _ _)
  have hinOrder : Batch.inOrder
      (m.loadAll now (headers.has Headers.evictAfterRead) keys ⟨∅, []⟩).1.records keys =
        Batch.inOrder c keys := by
    refine Batch.inOrder_congr fun key hkey => (hrecords key).trans ?_
    rw [if_pos hkey]
    exact Option.or_none
  rw [loadAll_alone, hinOrder]
  exact hagree

theorem merge_agree {records : List Record} {headers : Headers} {merger : Merger}
    (hmemory : headers.has Headers.memoryCacheOnly = false)
    (herrors : headers.has Headers.errorsReplaceCachedValues = false)
    (hmerger : merger ∈ Merger.fieldwise) (hrecords : ∀ r ∈ records, r.Regular K)
    (hnone : ((memory m empty).merge now records headers merger).state.evictions = 0) :
    Agree config K ((memory m empty).merge now records headers merger)
      ((store s).merge now records headers merger) := by
  cases hstore : headers.has Headers.doNotStore with
  | true =>
    have hskipped : (memory m empty).merge now records headers merger =
        ⟨∅, memory m empty, []⟩ := by
      rw [merge, hstore]
      rfl
    have hdirect : (store s).merge now records headers merger = ⟨∅, store s, []⟩ := by
      rw [merge, Store.merge, hstore]
      rfl
    exact ⟨∅, m, s, c, hskipped, hdirect, h⟩
  | false =>
    rw [merge_alone m now records hstore] at hnone ⊢
    have hmore := Memory.evictions_le_merge now headers merger h.remembered records
    have hkept : (m.merge now records headers merger).2.lru.evictions = m.lru.evictions := by
      have hzero : (m.merge now records headers merger).2.lru.evictions + 0 = 0 := hnone
      omega
    obtain ⟨hpaths, hholds⟩ := Memory.merge_eq now headers merger h.remembered records hkept
    obtain ⟨hanswers, hregular⟩ := Store.merge_answers h.stored h.regular hlimit now hmerger
      hrecords hstore hmemory herrors
    rw [hpaths]
    rw [h.trackDates] at hholds ⊢
    exact h.agree (Memory.keeps_merge m now records headers merger) hholds hanswers hregular

theorem removeKeys_agree (keys : List Key) (cascade : Bool) :
    Agree config K ((memory m empty).removeKeys now keys cascade)
      ((store s).removeKeys now keys cascade) := by
  obtain ⟨c', hremoval, hholds⟩ := Memory.removeKeys_removal h.remembered now keys cascade
  have hanswers := Store.removeKeys_answers h.stored hlimit hremoval
  rw [removeKeys_alone]
  exact h.agree (Memory.keeps_removeKeys m now keys cascade) hholds hanswers
    (h.regular.of_find? fun _ _ => hremoval.of_find?)

theorem removeTypes_agree (types : List String) :
    Agree config K ((memory m empty).removeTypes now types) ((store s).removeTypes now types) := by
  obtain ⟨c', hremoval, hholds⟩ :=
    Memory.removeWhere_removal h.remembered now fun _ r => types.contains r.typeName
  have hanswers := Store.removeTypes_answers h.stored hlimit hremoval
  rw [removeTypes_alone]
  exact h.agree (Memory.keeps_removeWhere m now _) hholds hanswers
    (h.regular.of_find? fun _ _ => hremoval.of_find?)

omit hlimit in
theorem removeMatched_agree {pattern : Pattern}
    (hserves : ∀ key, K key → Glob.Serves pattern.glob key) :
    Agree config K ((memory m empty).removeMatched now pattern)
      ((store s).removeMatched now pattern) := by
  obtain ⟨c', hremoval, hholds⟩ :=
    Memory.removeWhere_removal h.remembered now fun key _ => pattern.accepts key
  have hserved : ∀ key r, c.find? key = some r → Glob.Serves pattern.glob key := by
    intro key r hfind
    have hkey := (h.regular.all key r hfind).key
    rw [h.regular.keyed key r hfind] at hkey
    exact hserves key hkey
  have hanswers := Store.removeMatching_answers h.stored hserved hremoval
  rw [removeMatched_alone]
  exact h.agree (Memory.keeps_removeWhere m now _) hholds hanswers
    (h.regular.of_find? fun _ _ => hremoval.of_find?)

omit hlimit now in
theorem clear_agree : Agree config K (memory m empty).clear (store s).clear :=
  h.agree (Memory.keeps_clear m) (Memory.holds_clear h.remembered) (Store.clear_answers h.stored)
    Contents.regular_empty

/-- One command, given to both tiers. -/
theorem run_agree {command : Command} (hcommand : command.Comparable K)
    (hnone : ((memory m empty).run now command).state.evictions = 0) :
    Agree config K ((memory m empty).run now command) ((store s).run now command) := by
  cases command with
  | load key headers => exact (load_agree h now hlimit key hcommand).mapValue Reply.record
  | loadAll keys headers => exact (loadAll_agree h now hlimit keys hcommand).mapValue Reply.records
  | merge records headers merger =>
    obtain ⟨hmemory, herrors, hmerger, hrecords⟩ := hcommand
    have hregular : ∀ r ∈ records, r.Regular K := fun r hr =>
      let ⟨hkey, hfields, hexact, hdepth⟩ := hrecords r hr
      ⟨hkey, hfields, hexact.exact hdepth⟩
    exact (merge_agree h now hlimit hmemory herrors hmerger hregular hnone).mapValue Reply.changed
  | remove key cascade =>
    exact (removeKeys_agree h now hlimit [key] cascade).mapValue fun n => Reply.flag (0 < n)
  | removeAll keys cascade =>
    exact (removeKeys_agree h now hlimit keys cascade).mapValue Reply.count
  | removeMatching source =>
    simp only [run, removeMatching]
    cases hparse : Pattern.parse source with
    | error error => exact ⟨_, m, s, c, rfl, rfl, h⟩
    | ok pattern =>
      exact ((removeMatched_agree h now (hcommand pattern hparse)).mapValue Except.ok).mapValue _
  | removeTypes types => exact (removeTypes_agree h now hlimit types).mapValue Reply.count
  | clear => exact (clear_agree h).mapValue fun _ => Reply.done
  | dump => exact hcommand.elim
  | trim maxSize factor sizes => exact hcommand.elim
  | name => exact hcommand.elim

end Operations

/-- Tiers with the same contents list the same records. -/
theorem Agree.alike {remembered stored : Outcome Chain Reply}
    (h : Agree config K remembered stored) : remembered.Alike stored := by
  obtain ⟨value, m, s, c, rfl, rfl, hpaired⟩ := h
  refine ⟨rfl, rfl, fun now => ⟨c, ?_, ?_⟩⟩
  · show (SortedMap.insert ∅ Memory.tierName (m.dump now)).find? Memory.tierName = some c
    rw [SortedMap.find?_insert_self, Memory.dump_eq hpaired.remembered]
  · obtain ⟨s', hdump, -⟩ := Store.dump_answers hpaired.stored hpaired.regular.keyed
    show (SortedMap.ofList [(Store.tierName, s.dump.value)]).find? Store.tierName = some c
    rw [hdump]
    exact SortedMap.find?_insert_self ∅ Store.tierName c

/-- **The same store.** A memory tier whose records do not expire and a persistent tier with the
same setting for dates, both empty to begin with, give the same replies to comparable commands and
hold the same records after each of them, as long as the memory tier has evicted nothing and the
persistent one binds no more parameters than a statement may. -/
theorem trace_agree {settings : MemoryConfig} {config : StoreConfig} (weigh : Weigher)
    (hdates : settings.trackDates = config.trackDates) (hlasting : settings.expireAfter = none)
    (hlimit : config.maxParameters ≤ Database.maxParameters) {K : Key → Prop}
    {commands : List (Instant × Command)} (hcommands : ∀ timed ∈ commands, timed.2.Comparable K)
    (hfits : ∀ outcome ∈ (memory (Memory.new settings weigh) empty).trace commands,
      outcome.state.evictions = 0) :
    List.Forall₂ Outcome.Alike ((memory (Memory.new settings weigh) empty).trace commands)
      ((store (Store.new config)).trace commands) := by
  refine forall₂_trace (R := fun a b => ∃ m s c, a = memory m empty ∧ b = store s ∧
      Paired config K m s c) (N := fun outcome => outcome.state.evictions = 0)
    (A := Command.Comparable K) ?_ hcommands hfits
    ⟨_, _, _, rfl, rfl, paired_new weigh hdates hlasting⟩
  rintro _ _ now command hcommand hnone ⟨m, s, c, rfl, rfl, hpaired⟩
  have hagree := run_agree hpaired now hlimit hcommand hnone
  have halike := hagree.alike
  obtain ⟨value, m', s', c', hremembered, hstored, hpaired'⟩ := hagree
  refine ⟨⟨m', s', c', ?_, ?_, hpaired'⟩, halike⟩
  · rw [hremembered]
  · rw [hstored]

/-- Two records, the first of which refers to the second and comes twice in one batch, one of them
read and evicted, and the other removed by a pattern. -/
theorem trace_agree_small_run :
    let settings : MemoryConfig := ⟨2, none, false⟩
    let record (name : String) (value : Value) : Record :=
      (Record.new ⟨name⟩ "Node").withField "next" value
    let commands : List (Instant × Command) :=
      [(⟨0⟩, .merge [record "a" (.reference ⟨"b"⟩), record "b" .null,
          record "a" (.reference ⟨"b"⟩)] Headers.none Merger.sum),
        (⟨1⟩, .loadAll [⟨"a"⟩, ⟨"a"⟩, ⟨"c"⟩] (Headers.none.flag Headers.evictAfterRead)),
        (⟨2⟩, .removeMatching "b%")]
    (∀ timed ∈ commands, timed.2.Comparable fun key => Glob.IsPlain key.text.toList) ∧
      List.Forall₂ Outcome.Alike
        ((memory (Memory.new settings Weigher.one) empty).trace commands)
        ((store (Store.new {})).trace commands) := by
  intro settings record commands
  have hrecord {name : String} {value : Value} (hname : Glob.IsPlain name.toList)
      (hvalue : value.HasShape .exact)
      (hdepth : (Blob.ofRecord (record name value)).toJson.nesting ≤ Json.depthLimit) :
      Glob.IsPlain (record name value).key.text.toList ∧ (record name value).isEmpty = false ∧
        (record name value).IsExact ∧
        (Blob.ofRecord (record name value)).toJson.nesting ≤ Json.depthLimit :=
    ⟨hname, rfl, ⟨SortedMap.all_empty.insert hvalue, SortedMap.all_empty⟩, hdepth⟩
  have ha := hrecord (by decide : Glob.IsPlain "a".toList)
    (⟨1, .reference ⟨"b"⟩⟩ : (Value.reference ⟨"b"⟩).HasShape .exact) (by decide +kernel)
  have hb := hrecord (by decide : Glob.IsPlain "b".toList)
    (⟨0, .null⟩ : Value.null.HasShape .exact) (by decide +kernel)
  have hpattern : ∀ pattern, Pattern.parse "b%" = .ok pattern →
      ∀ key : Key, Glob.IsPlain key.text.toList → Glob.Serves pattern.glob key := by
    intro pattern hparse key hkey
    have htokens : Pattern.parse "b%" = .ok ⟨"b%", [.literal 'b', .anyRun]⟩ := by decide +kernel
    rw [htokens] at hparse
    cases hparse
    exact Glob.serves_of_plain (by decide +kernel) (by decide +kernel) hkey
  have hcommands : ∀ timed ∈ commands,
      timed.2.Comparable fun key => Glob.IsPlain key.text.toList := by
    simp only [commands, List.forall_mem_cons, List.not_mem_nil, false_implies, implies_true,
      and_true]
    refine ⟨⟨rfl, rfl, by simp [Merger.fieldwise], ?_⟩, rfl, hpattern⟩
    exact List.forall_mem_cons.2 ⟨ha, List.forall_mem_cons.2 ⟨hb, List.forall_mem_singleton.2 ha⟩⟩
  exact ⟨hcommands, trace_agree Weigher.one rfl rfl (by decide) hcommands (by decide +kernel)⟩

/-- A persistent tier may be told to bind more parameters than a statement can. Then it cannot
remove the records of so many types, where a memory tier can. -/
theorem trace_differs_beyond_limit :
    let settings : MemoryConfig := ⟨1, none, false⟩
    let config : StoreConfig := { maxParameters := Database.maxParameters + 1 }
    let record : Record := (Record.new ⟨"a"⟩ "T").withField "x" (.int 1)
    let commands : List (Instant × Command) :=
      [(⟨0⟩, .merge [record] Headers.none Merger.overwrite),
        (⟨1⟩, .removeTypes (List.replicate (Database.maxParameters + 1) "T"))]
    (∀ timed ∈ commands, timed.2.Comparable fun _ => True) ∧
      (∀ outcome ∈ (memory (Memory.new settings Weigher.one) empty).trace commands,
        outcome.state.evictions = 0) ∧
      ¬List.Forall₂ Outcome.Alike
        ((memory (Memory.new settings Weigher.one) empty).trace commands)
        ((store (Store.new config)).trace commands) := by
  intro settings config record commands
  refine ⟨?_, by decide +kernel, ?_⟩
  · have hrecord : record.IsExact :=
      ⟨SortedMap.all_empty.insert ⟨1, .int 1⟩, SortedMap.all_empty⟩
    simp only [commands, List.forall_mem_cons, List.not_mem_nil, false_implies, implies_true,
      and_true]
    exact ⟨⟨rfl, rfl, List.mem_cons_self,
      List.forall_mem_singleton.2 ⟨trivial, rfl, hrecord, by decide +kernel⟩⟩, trivial⟩
  · rintro (_ | ⟨-, _ | ⟨halike, -⟩⟩)
    let a := ((memory (Memory.new settings Weigher.one) empty).run ⟨0⟩
      (.merge [record] Headers.none Merger.overwrite)).state
    let s := ((Store.new config).merge ⟨0⟩ [record] Headers.none Merger.overwrite).state
    let types := List.replicate (Database.maxParameters + 1) "T"
    have hsame : (a.removeTypes ⟨1⟩ types).value = (s.removeTypes types).value := halike.count_eq
    have hremembered : (a.removeTypes ⟨1⟩ types).value = 1 := by decide +kernel
    have hlimit : Database.maxParameters < s.config.maxParameters := by decide +kernel
    have hstored : (s.removeTypes types).value = 0 :=
      s.removeTypes_unbound hlimit (by rw [List.length_replicate]; exact Nat.lt_succ_self _)
    rw [hremembered, hstored] at hsame
    cases hsame

end Chain
end RecordCache
