import RecordCache.Proofs.Chain.Keeps
import RecordCache.Proofs.Record.Parsed
import RecordCache.Proofs.Store.Merge

/-!
# Reading back what was merged

A record is merged by each tier with what that tier holds itself, and read back from the first tier
that has it. The fields read are therefore those that this tier held before, with the incoming ones
laid over them; what another tier held under the key does not come in.

* `Memory.Runs` is the invariant of a memory tier from its creation on, kept by `Chain.runs_after`;
* `Memory.merge_one`, `Store.merge_one`: what each tier holds after the merge;
* `Chain.fields_load_merge`: what is read back after any history;
* `Chain.load_merge_drops_field`: a field that could be read before and cannot be read afterwards.
-/

namespace RecordCache

/-- The state of a memory tier that was made with these settings and has been in use since. -/
structure Memory.Runs (settings : MemoryConfig) (weigh : Weigher) (m : Memory) : Prop where
  config : m.config = settings
  valid : m.lru.Valid
  weigh : m.lru.weigh = weigh
  maxWeight : m.lru.maxWeight = settings.maxWeight
  expireAfter : m.lru.expireAfter = settings.expireAfter
  keyed : m.lru.All Memory.IsKeyed

namespace Memory

variable {config : MemoryConfig} {weigh : Weigher} {m m' : Memory}

theorem runs_new (config : MemoryConfig) (weigh : Weigher) : Runs config weigh (new config weigh) :=
  ⟨rfl, Lru.valid_new _ _ _, rfl, rfl, rfl, Lru.all_of_empty rfl⟩

theorem Runs.keeps (h : Runs config weigh m) (hkeeps : Keeps m m') : Runs config weigh m' := by
  obtain ⟨hvalid, hsettings, hall⟩ := hkeeps.lru h.valid
  exact ⟨hkeeps.config.trans h.config, hvalid, hsettings.weigh.trans h.weigh,
    hsettings.maxWeight.trans h.maxWeight, hsettings.expireAfter.trans h.expireAfter, hall h.keyed⟩

/-- A live record is under its own key. -/
theorem Runs.key_of_peek (h : Runs config weigh m) {now : Instant} {key : Key} {r : Record}
    (hpeek : m.lru.peek now key = some r) : r.key = key :=
  h.keyed.of_peek hpeek

/-- One record, merged by itself without headers: it is there exactly if what becomes of it fits. -/
theorem merge_one (h : Runs config weigh m) (hexpire : config.expireAfter ≠ some ⟨0⟩)
    (now : Instant) (r : Record) :
    let merged := Merger.settled (m.lru.peek now r.key) r
    (m.merge now [r] Headers.none Merger.overwrite).2.lru.peek now r.key =
      if weigh r.key merged ≤ config.maxWeight then some merged else none := by
  have hstamped : r.stamped m.config.trackDates Headers.none = r := by
    rw [Record.stamped]
    split <;> rfl
  have hmerge : (m.merge now [r] Headers.none Merger.overwrite).2 =
      m.put now r.key (Merger.settled (m.lru.peek now r.key) r) := by
    show (mergeOne now Headers.none Merger.overwrite m r).2 = _
    rw [mergeOne, hstamped]
    cases hpeek : m.lru.peek now r.key with
    | none => rfl
    | some existing =>
      have hkey := h.key_of_peek hpeek
      show m.put now existing.key _ = _
      rw [hkey]
      rfl
  dsimp only
  rw [hmerge, put]
  refine (Lru.peek_insert h.valid (h.expireAfter ▸ hexpire) now r.key _).trans ?_
  rw [h.weigh, h.maxWeight]

end Memory

namespace Chain

variable {config : MemoryConfig} {weigh : Weigher}

/-- A memory tier in front of a store, in use. -/
def Runs (config : MemoryConfig) (weigh : Weigher) (chain : Chain) : Prop :=
  ∃ m s, chain = memory m (store s) ∧ m.Runs config weigh

theorem runs_run {chain : Chain} (h : Runs config weigh chain) (now : Instant)
    (command : Command) : Runs config weigh (chain.run now command).state := by
  obtain ⟨m, s, rfl, hm⟩ := h
  have hkeyed : (memory m (store s)).Keyed := ⟨hm.keyed, trivial⟩
  have hkeeps := keeps_run now hkeyed command
  generalize ((memory m (store s)).run now command).state = after at *
  cases hkeeps with
  | memory hmemory hstore =>
    cases hstore with
    | store s s' => exact ⟨_, s', rfl, hm.keeps hmemory⟩

/-- A chain of a memory tier and a store stays one. -/
theorem runs_after (config : MemoryConfig) (weigh : Weigher) (s : Store)
    (commands : List (Instant × Command)) :
    Runs config weigh ((memory (Memory.new config weigh) (store s)).after commands) :=
  after_induction (P := Runs config weigh) (A := fun _ => True)
    (fun _ now command _ h => runs_run h now command) (fun _ _ => trivial)
    ⟨_, s, rfl, Memory.runs_new config weigh⟩

/-- The first tier that has the record answers. -/
theorem load_memory (m : Memory) (s : Store) (now : Instant) (key : Key) :
    ((memory m (store s)).load now key Headers.none).value =
      (m.lru.peek now key).or (s.load [key] Headers.none).value.head? :=
  load_memory_value m (store s) now key Headers.none

/-- The fields of a record, none without one. -/
def fieldsOf (current : Option Record) : SortedMap String Value := current.elim ∅ Record.fields

theorem fields_settled {current : Option Record} {r : Record}
    (hexact : r.fields.All (Value.HasShape .exact))
    (herrors : r.fields.All fun value => value.isError = false) :
    (Merger.settled current r).fields = (fieldsOf current).overlay r.fields := by
  cases current with
  | none => exact (SortedMap.overlay_empty r.fields).symm
  | some existing => exact Merger.fields_overwrite hexact (.inr herrors)

/-- What the persistent tier gives after the merge: its own record with the incoming fields. -/
theorem load_merge_store {t : Store} {table : Table} {current : Option Record} {r : Record}
    (now : Instant) (hdatabase : t.database = ⟨some table⟩)
    (hcurrent : table.read? r.key = current.map .ok) (hfields : r.isEmpty = false)
    (hexact : r.IsExact) (herrors : r.fields.All fun value => value.isError = false)
    (hdepth : (Blob.ofRecord r).toJson.nesting ≤ Json.depthLimit) :
    ∃ loaded : Record,
      ((t.merge now [r] Headers.none Merger.overwrite).state.load [r.key]
        Headers.none).value.head? = some loaded ∧
      loaded.key = r.key ∧
      loaded.fields = ((fieldsOf current).mapValues Value.reread).overlay r.fields := by
  obtain ⟨written, hstate, -, hread⟩ := Store.merge_one now hdatabase hcurrent (.inr hfields)
  have hr : r.Exact := hexact.exact hdepth
  have hstorable : (Merger.settled current r).Storable .finite := by
    cases current with
    | none => exact hr.storable
    | some existing =>
      obtain ⟨row, -, hdecode⟩ := Option.map_eq_some_iff.1 hcurrent
      exact Merger.all_overwrite (Row.storable_of_decode hdecode).finite hr.storable
  have hwritten : written.read? r.key =
      (some ((Blob.ofRecord (Merger.settled current r)).reread.toRecord
        (Merger.settled current r).key (Merger.settled current r).typeName)).map .ok := by
    rw [hread, if_pos rfl, WriteDates.decode_row, if_pos (Record.storable_finite_iff.1 hstorable),
      Option.map_some]
  refine ⟨_, Store.head?_load (congrArg Store.database hstate) hwritten,
    Store.key_of_read? hwritten, ?_⟩
  show (Merger.settled current r).fields.mapValues Value.reread = _
  have hsame : r.fields.mapValues Value.reread = r.fields :=
    SortedMap.mapValues_eq_self fun field value hfind => (hr.fields field value hfind).reread_eq
  rw [fields_settled hexact.fields herrors, SortedMap.mapValues_overlay, hsame]

/-- **Reading back.** In every state of a memory tier in front of a persistent one, a record merged
without headers is read back with the fields that the tier answering now held before, the incoming
ones laid over them: the memory tier answers when what becomes of the record there fits, else the
persistent tier does, whose values have been written and read once more. These are the fields that
could be read before when the same tier answered, or when no tier had the record. -/
theorem fields_load_merge {config : MemoryConfig} (hconfig : config.validate = .ok ())
    (weigh : Weigher) (s : Store) {commands : List (Instant × Command)} {m : Memory} {t : Store}
    (hreach : (memory (Memory.new config weigh) (store s)).after commands = memory m (store t))
    (now : Instant) {r : Record} {table : Table} {current : Option Record}
    (hdatabase : t.database = ⟨some table⟩) (hcurrent : table.read? r.key = current.map .ok)
    (hfields : r.isEmpty = false) (hexact : r.IsExact)
    (herrors : r.fields.All fun value => value.isError = false)
    (hdepth : (Blob.ofRecord r).toJson.nesting ≤ Json.depthLimit) :
    let before := fieldsOf ((memory m (store t)).load now r.key Headers.none).value
    let held := m.lru.peek now r.key
    let fits := weigh r.key (Merger.settled held r) ≤ config.maxWeight
    ∃ loaded : Record,
      (((memory m (store t)).merge now [r] Headers.none Merger.overwrite).state.load now r.key
        Headers.none).value = some loaded ∧
      loaded.key = r.key ∧
      loaded.fields = (if fits then fieldsOf held
        else (fieldsOf current).mapValues Value.reread).overlay r.fields ∧
      ((held ≠ none ∧ fits ∨ held = none ∧ (current = none ∨ ¬fits) ∧
        (fieldsOf current).All (Value.HasShape .exact)) →
          loaded.fields = before.overlay r.fields) := by
  intro before held fits
  obtain ⟨m', t', hshape, hruns⟩ := runs_after config weigh s commands
  rw [hreach] at hshape
  cases hshape
  have hexpire : config.expireAfter ≠ some ⟨0⟩ := by
    intro hzero
    rw [MemoryConfig.validate, if_pos hzero] at hconfig
    split at hconfig <;> cases hconfig
  have hmemory := Memory.merge_one hruns hexpire now r
  obtain ⟨stored, hstore, hkey, hvalues⟩ :=
    load_merge_store now hdatabase hcurrent hfields hexact herrors hdepth
  -- the memory tier answers if it kept what became of the record, else the store does
  have hload : (((memory m (store t)).merge now [r] Headers.none Merger.overwrite).state.load now
      r.key Headers.none).value = ((m.merge now [r] Headers.none Merger.overwrite).2.lru.peek now
        r.key).or (some stored) := by
    refine (load_memory _ _ now r.key).trans ?_
    rw [hstore]
    rfl
  have hbefore : before = fieldsOf (held.or current) := by
    have hrow : (t.load [r.key] Headers.none).value.head? = current :=
      Store.head?_load hdatabase hcurrent
    show fieldsOf ((memory m (store t)).load now r.key Headers.none).value = _
    rw [load_memory, hrow]
  dsimp only at hmemory
  rw [hload, hmemory]
  by_cases hfits : fits
  · -- the record fits: it is merged with what the memory tier held, whatever the store has
    refine ⟨Merger.settled held r, ?_, ?_, ?_, ?_⟩
    · rw [if_pos hfits, Option.some_or]
    · exact Merger.key_settled fun existing hheld => hruns.key_of_peek hheld
    · rw [if_pos hfits, fields_settled hexact.fields herrors]
    · rw [fields_settled hexact.fields herrors, hbefore]
      rintro (⟨hsome, -⟩ | ⟨hnone, hcurrent | hheavy, -⟩)
      · obtain ⟨existing, hheld⟩ := Option.ne_none_iff_exists'.1 hsome
        rw [hheld]
        rfl
      · rw [hnone, hcurrent]
        rfl
      · exact absurd hfits hheavy
  · -- it does not fit: the memory tier drops it, and the row of the store is read
    refine ⟨stored, ?_, hkey, ?_, ?_⟩
    · rw [if_neg hfits, Option.none_or]
    · rw [if_neg hfits]
      exact hvalues
    · rw [hvalues, hbefore]
      rintro (⟨-, hlight⟩ | ⟨hnone, -, hfloats⟩)
      · exact absurd hlight hfits
      · have hsame : (fieldsOf current).mapValues Value.reread = fieldsOf current :=
          SortedMap.mapValues_eq_self fun field value hfind =>
            let ⟨_, hvalue⟩ := hfloats field value hfind
            hvalue.reread_eq
        rw [hnone, Option.none_or, hsame]

/-- A memory tier with room for one record: the record `a` is dropped when `b` is merged, and the
next merge of `a` finds no trace of it there. -/
theorem load_merge_drops_field :
    let record (name field : String) (n : Int64) : Record :=
      (Record.new ⟨name⟩ "Node").withField field (.int n)
    let chain := (memory (Memory.new ⟨1, none, false⟩ Weigher.one) (store (Store.new {}))).after
      [(⟨0⟩, .merge [record "a" "x" 1] Headers.none Merger.overwrite),
        (⟨0⟩, .merge [record "b" "x" 1] Headers.none Merger.overwrite)]
    let before := fieldsOf (chain.load ⟨0⟩ ⟨"a"⟩ Headers.none).value
    let merged := (chain.merge ⟨0⟩ [record "a" "y" 2] Headers.none Merger.overwrite).state
    let after := fieldsOf (merged.load ⟨0⟩ ⟨"a"⟩ Headers.none).value
    before.keys = ["x"] ∧ (before.overlay (record "a" "y" 2).fields).keys = ["x", "y"] ∧
      after.keys = ["y"] := by
  decide +kernel

/-- With room for two records the memory tier still has the record `a` when it is merged again. -/
theorem fields_load_merge_two_records :
    let record (name field : String) (n : Int64) : Record :=
      (Record.new ⟨name⟩ "Node").withField field (.int n)
    let m := (((Memory.new ⟨2, none, false⟩ Weigher.one).merge ⟨0⟩ [record "a" "x" 1] Headers.none
      Merger.overwrite).2.merge ⟨1⟩ [record "b" "x" 1] Headers.none Merger.overwrite).2
    let t := (((Store.new {}).merge ⟨0⟩ [record "a" "x" 1] Headers.none
      Merger.overwrite).state.merge ⟨1⟩ [record "b" "x" 1] Headers.none Merger.overwrite).state
    let before := fieldsOf ((memory m (store t)).load ⟨2⟩ ⟨"a"⟩ Headers.none).value
    ∃ loaded : Record,
      (((memory m (store t)).merge ⟨2⟩ [record "a" "y" 2] Headers.none
        Merger.overwrite).state.load ⟨2⟩ ⟨"a"⟩ Headers.none).value = some loaded ∧
      loaded.fields = before.overlay (record "a" "y" 2).fields := by
  intro record m t before
  have hexact (name field : String) (n : Int64) : (record name field n).IsExact :=
    ⟨SortedMap.all_empty.insert ⟨1, .int n⟩, SortedMap.all_empty⟩
  let row := (WriteDates.ofHeaders ⟨0⟩ Headers.none).row false (record "a" "x" 1)
  let table := t.database.table.getD ⟨[], false⟩
  have hdatabase : t.database = ⟨some table⟩ := by decide +kernel
  have hfind : table.find? ⟨"a"⟩ = some row := by decide +kernel
  have hcurrent : table.read? ⟨"a"⟩ = (some (record "a" "x" 1)).map .ok := by
    rw [Table.read?, hfind]
    exact congrArg some (((hexact "a" "x" 1).exact (by decide +kernel)).decode_row _ _)
  have hvalid : MemoryConfig.validate ⟨2, none, false⟩ = .ok () := rfl
  have hreach : (memory (Memory.new ⟨2, none, false⟩ Weigher.one) (store (Store.new {}))).after
      [(⟨0⟩, .merge [record "a" "x" 1] Headers.none Merger.overwrite),
        (⟨1⟩, .merge [record "b" "x" 1] Headers.none Merger.overwrite)] =
      memory m (store t) := rfl
  obtain ⟨loaded, hload, -, -, hsame⟩ := fields_load_merge hvalid Weigher.one (Store.new {}) hreach
    ⟨2⟩ (r := record "a" "y" 2) hdatabase hcurrent rfl (hexact "a" "y" 2)
    (SortedMap.all_empty.insert rfl) (by decide +kernel)
  have hheld : m.lru.peek ⟨2⟩ ⟨"a"⟩ ≠ none := by
    rw [Option.ne_none_iff_isSome]
    decide +kernel
  exact ⟨loaded, hload, hsame (.inl ⟨hheld, by decide +kernel⟩)⟩

end Chain
end RecordCache
