import RecordCache.Proofs.Chain.Alone
import RecordCache.Proofs.Chain.Trace
import RecordCache.Proofs.Dates
import RecordCache.Proofs.Memory.Contents
import RecordCache.Proofs.Store.Committed

/-!
# The dates of stored values

A tier that tracks dates is given responses for one key, one after the other. Whichever tier it is,
what it holds under the key is what these responses have made of it, so that each value has the
dates of the last response that touched its field: its own, unless that was an error in its place or
brought dates without a value.

* `Memory.madeOf_merge`, `Store.madeOf_merge`: one response, merged into each tier;
* `Chain.Serving` is the invariant of a tier that is given responses, `Chain.Serving.run` keeps it
  through one of them and `Chain.Serving.after` by induction through all;
* `Chain.dates_of_stored_values`: what is read afterwards, and what counts as fresh.
-/

namespace RecordCache

open Response

variable {key : Key} {responses : List Response} {next : Response}

/-- One response, merged into the contents of a memory tier. -/
theorem Memory.madeOf_merge {m : Memory} {c : Contents} (h : m.Holds c)
    (htracks : m.config.trackDates = true) (hmade : MadeOf key responses (c.find? key))
    (hnext : next.IsPlain key)
    (hroom : (m.merge next.now [next.record] next.headers .overwrite).2.lru.evictions =
      m.lru.evictions) :
    ∃ c', (m.merge next.now [next.record] next.headers .overwrite).2.Holds c' ∧
      MadeOf key (responses ++ [next]) (c'.find? key) := by
  obtain ⟨-, hholds⟩ := merge_eq next.now next.headers .overwrite h [next.record] hroom
  have hsettled := hmade.settle hnext
  have hkey : next.stamped.key = key := (Record.key_stamped _ _ _).trans hnext.key
  have hmerged : (c.merge next.headers .overwrite
      ([next.record].map (Record.stamped m.config.trackDates next.headers))).2 =
        c.insert (next.settle (c.find? key)).key (next.settle (c.find? key)) := by
    rw [htracks, ← hkey]
    show (Contents.mergeOne next.headers .overwrite (∅, c) next.stamped).2 = _
    rw [Contents.mergeOne]
    cases c.find? next.stamped.key <;> rfl
  refine ⟨_, hholds, ?_⟩
  rw [hmerged, hsettled.key, SortedMap.find?_insert_self]
  exact hsettled

namespace Store

variable {s : Store} {table : Table}

/-- A load gives what the row under the key holds. -/
theorem read?_of_load {ask : Headers} {r : Record}
    (h : (s.load [key] ask).value.head? = some r) : s.database.read? key = some (.ok r) := by
  rcases s.load_value [key] ask with hnone | ⟨records, hselect, hvalue⟩
  · rw [hnone] at h
    cases h
  · have hdetects := s.database.select_detects s.config.maxParameters [key]
    rw [hselect] at hdetects
    rw [hvalue, head?_inOrder] at h
    exact (hdetects.2.find?_byKey_iff.1 h).2

/-- A merge that has to read a row that cannot be read changes nothing. -/
theorem merge_unreadable (hnext : next.IsPlain key) (hbad : s.database.Unreadable key) :
    (s.merge next.now [next.record] next.headers .overwrite).state = s := by
  rw [merge]
  split
  · rfl
  · rw [run]
    cases hresult : mergeIn s.config next.now
        ([next.record].map (Record.stamped s.config.trackDates next.headers)) next.headers
        .overwrite s.database with
    | error error => rfl
    | ok result =>
      rw [mergeIn, hnext.errors, Bool.and_false] at hresult
      obtain ⟨hgood, -⟩ := mergeRows_committed (fun _ _ => rfl) hresult
      refine absurd ?_ (hgood _ (List.mem_map_of_mem (List.mem_singleton.2 rfl)))
      rw [Record.key_stamped, hnext.key]
      exact hbad

/-- What becomes of the record under the key is written, unless neither has a field. -/
theorem dirty_mergeOne {stored : SortedMap Key Record} {current : Option Record}
    (hfind : stored.find? next.stamped.key = current) (hmade : MadeOf key responses current)
    (hnext : next.IsPlain key) :
    let dirty := (mergeOne next.headers .overwrite ⟨stored, ∅, ∅⟩ next.stamped).dirty
    dirty.find? key = some (next.settle current) ∨ dirty.find? key = none ∧
      ∃ existing, current = some existing ∧ existing.MadeFrom key (responses ++ [next]) := by
  have hsettled := hmade.settle hnext
  have hput : SortedMap.find? (SortedMap.insert ∅ (next.settle current).key (next.settle current))
      key = some (next.settle current) := by
    rw [hsettled.key]
    exact SortedMap.find?_insert_self _ _ _
  dsimp only
  rw [mergeOne, hfind]
  cases current with
  | none => exact .inl hput
  | some existing =>
    dsimp only
    split
    · rename_i hempty
      refine .inr ⟨rfl, existing, rfl, hmade.key, hmade.fields, fun field value hvalue => ?_⟩
      have hkept : (Merger.overwrite.merge existing next.stamped
          next.headers).record.fields.contains field = true :=
        Merger.ByFields.overwrite.hasField_merge (SortedMap.contains_iff.2 ⟨value, hvalue⟩)
      rw [SortedMap.contains, SortedMap.isEmpty_iff.1 hempty field] at hkept
      cases hkept
    · exact .inl hput

/-- A response merged into a row that can be read, or into none. -/
theorem madeOf_merge {current : Option Record} (hdatabase : s.database = ⟨some table⟩)
    (htracks : s.config.trackDates = true) (hcurrent : table.read? key = current.map .ok)
    (hmade : MadeOf key responses current) (hnext : next.IsPlain key)
    (hstore : next.headers.has Headers.doNotStore = false)
    (hmemory : next.headers.has Headers.memoryCacheOnly = false) :
    ∃ written : Table, (s.merge next.now [next.record] next.headers .overwrite).state =
        { s with database := ⟨some written⟩ } ∧
      (Database.Unreadable ⟨some written⟩ key ∨ ∃ r, written.read? key = some (.ok r) ∧
        r.MadeFrom key (responses ++ [next])) := by
  have hkey : next.stamped.key = key := (Record.key_stamped _ _ _).trans hnext.key
  have hoverwrite (existing incoming : Record) :
      (Merger.overwrite.merge existing incoming next.headers).record.key = existing.key := rfl
  obtain ⟨c, hkeyed, hc⟩ := exists_keyed hcurrent
  have hread : ∀ r ∈ [next.record], table.read? r.key = (c.find? r.key).map .ok := by
    intro r hr
    rw [List.mem_singleton.1 hr, hnext.key, hc]
    exact hcurrent
  obtain ⟨stored, written, hstored, hmerge, -, -, hlast⟩ :=
    merge_eq hoverwrite next.now hdatabase (List.cons_ne_nil next.record []) hstore hmemory
      (Bool.and_eq_false_iff.2 (.inr hnext.errors)) hkeyed hread (.one _)
  refine ⟨written, congrArg Outcome.state hmerge, ?_⟩
  have hfind : stored.find? next.stamped.key = current := by
    rw [hstored, hkey, hc]
    exact if_pos (List.mem_singleton.2 hnext.key.symm)
  have hone : ([next.record].map (Record.stamped true next.headers)).foldl
      (mergeOne next.headers .overwrite) ⟨stored, ∅, ∅⟩ =
        mergeOne next.headers .overwrite ⟨stored, ∅, ∅⟩ next.stamped := rfl
  have hrow := hlast key
  rw [htracks, hone] at hrow
  rcases dirty_mergeOne hfind hmade hnext with hdirty | ⟨hdirty, existing, rfl, hexisting⟩
  · rw [hdirty, Option.map_some, Option.some_or, WriteDates.decode_row] at hrow
    split at hrow
    · exact .inr ⟨_, hrow, (hmade.settle hnext).reread⟩
    · exact .inl ⟨_, hrow⟩
  · rw [hdirty] at hrow
    exact .inr ⟨existing, hrow.trans hcurrent, hexisting⟩

end Store

namespace Chain

/-- A tier by itself that tracks dates and has nothing under a key, where records do not expire. -/
inductive TracksDates (key : Key) : Chain → Prop
  | memory {m : Memory} {c : Contents} : m.Holds c → m.config.trackDates = true →
    c.find? key = none → TracksDates key (memory m empty)
  | store {s : Store} {table : Table} : s.database = ⟨some table⟩ → s.config.trackDates = true →
    table.find? key = none → TracksDates key (store s)

/-- No header keeps the response out of the tier. -/
def takes (chain : Chain) (response : Response) : Bool :=
  !response.headers.has Headers.doNotStore &&
    !(chain.isPersistent && response.headers.has Headers.memoryCacheOnly)

/-- Unless something was evicted, or a row cannot be read, the record under the key is what the
responses have made of it. -/
inductive Serving (key : Key) (evicted : Nat) (responses : List Response) : Chain → Prop
  | memory {m : Memory} {c : Contents} : m.Holds c → m.config.trackDates = true →
    evicted ≤ m.lru.evictions →
    (m.lru.evictions = evicted → MadeOf key responses (c.find? key)) →
    Serving key evicted responses (memory m empty)
  | store {s : Store} {table : Table} : s.database = ⟨some table⟩ → s.config.trackDates = true →
    (¬s.database.Unreadable key → ∃ current, table.read? key = current.map .ok ∧
      MadeOf key responses current) →
    Serving key evicted responses (store s)

variable {chain : Chain} {evicted : Nat}

theorem serving_start (h : chain.TracksDates key) : Serving key chain.evictions [] chain := by
  cases h with
  | memory hholds htracks hnone =>
    refine .memory hholds htracks (Nat.le_refl _) fun _ => ?_
    rw [hnone]
    rfl
  | store hdatabase htracks hnone =>
    refine .store hdatabase htracks fun _ => ⟨none, ?_, rfl⟩
    rw [Table.read?, hnone]
    rfl

/-- A response that a memory tier takes. Evictions are never undone: if there was none until the
end, there was none on the way. -/
theorem serving_memory {m : Memory} {c : Contents} (hholds : m.Holds c)
    (htracks : m.config.trackDates = true) (hmore : evicted ≤ m.lru.evictions)
    (hmade : m.lru.evictions = evicted → MadeOf key responses (c.find? key))
    (hnext : next.IsPlain key) :
    Serving key evicted (responses ++ [next])
      (memory (m.merge next.now [next.record] next.headers .overwrite).2 empty) := by
  have hkeeps := Memory.keeps_merge m next.now [next.record] next.headers .overwrite
  have hle := Memory.evictions_le_merge next.now next.headers .overwrite hholds [next.record]
  refine .memory (hholds.keeps hkeeps rfl) (hkeeps.config ▸ htracks) (Nat.le_trans hmore hle)
    fun hnone => ?_
  have hsame := Nat.le_antisymm (hnone ▸ hmore) hle
  obtain ⟨c', hholds', hmade'⟩ := Memory.madeOf_merge hholds htracks
    (hmade (hsame.symm.trans hnone)) hnext hsame
  rw [← hholds'.contents] at hmade'
  exact hmade'

/-- A response that a persistent tier takes. A row that cannot be read is never written again, so
that nothing is claimed of it from then on. -/
theorem serving_store {s : Store} {table : Table} (hdatabase : s.database = ⟨some table⟩)
    (htracks : s.config.trackDates = true)
    (hmade : ¬s.database.Unreadable key → ∃ current, table.read? key = current.map .ok ∧
      MadeOf key responses current)
    (hnext : next.IsPlain key) (hstore : next.headers.has Headers.doNotStore = false)
    (hmemory : next.headers.has Headers.memoryCacheOnly = false) :
    Serving key evicted (responses ++ [next])
      (store (s.merge next.now [next.record] next.headers .overwrite).state) := by
  by_cases hbad : s.database.Unreadable key
  · rw [Store.merge_unreadable hnext hbad]
    exact .store hdatabase htracks fun hgood => absurd hbad hgood
  · obtain ⟨current, hcurrent, hmadeOf⟩ := hmade hbad
    obtain ⟨written, hstate, hwritten⟩ :=
      Store.madeOf_merge hdatabase htracks hcurrent hmadeOf hnext hstore hmemory
    rw [hstate]
    refine .store rfl htracks fun hgood => ?_
    obtain ⟨r, hread, hr⟩ := hwritten.resolve_left hgood
    exact ⟨some r, hread, hr⟩

/-- One response, which a header may keep out. -/
theorem Serving.run (h : Serving key evicted responses chain) (hnext : next.IsPlain key) :
    let after := (chain.run next.command.1 next.command.2).state
    after.isPersistent = chain.isPersistent ∧
      Serving key evicted (if chain.takes next then responses ++ [next] else responses) after := by
  rw [takes]
  cases h with
  | memory hholds htracks hmore hmade =>
    rename_i m c
    show ((Chain.memory m empty).merge next.now [next.record] next.headers
      .overwrite).state.isPersistent = _ ∧ Serving key evicted _ ((Chain.memory m empty).merge
        next.now [next.record] next.headers .overwrite).state
    cases hskip : next.headers.has Headers.doNotStore with
    | true =>
      rw [merge, if_pos hskip]
      exact ⟨rfl, .memory hholds htracks hmore hmade⟩
    | false =>
      rw [merge_alone m next.now [next.record] hskip]
      exact ⟨rfl, serving_memory hholds htracks hmore hmade hnext⟩
  | store hdatabase htracks hmade =>
    rename_i s table
    refine ⟨rfl, ?_⟩
    show Serving key evicted _ (Chain.store (s.merge next.now [next.record] next.headers
      .overwrite).state)
    rw [isPersistent, Bool.true_and]
    split
    · rename_i htaken
      simp only [Bool.and_eq_true, Bool.not_eq_true'] at htaken
      exact serving_store hdatabase htracks hmade hnext htaken.1 htaken.2
    · rename_i hkept
      have hskip : (next.headers.has Headers.doNotStore || [next.record].isEmpty ||
          next.headers.has Headers.memoryCacheOnly) = true := by
        simpa [or_iff_not_imp_left] using hkept
      rw [Store.merge_skipped next.now .overwrite hskip]
      exact .store hdatabase htracks hmade

/-- By induction all of them. -/
theorem Serving.after {taken : List Response} (h : Serving key evicted taken chain)
    (hresponses : ∀ response ∈ responses, response.IsPlain key) :
    Serving key evicted (taken ++ responses.filter chain.takes)
      (chain.after (responses.map Response.command)) := by
  induction responses generalizing chain taken with
  | nil => exact (List.append_nil taken).symm ▸ h
  | cons next responses ih =>
    obtain ⟨hnext, hrest⟩ := List.forall_mem_cons.1 hresponses
    obtain ⟨hpersistent, hstep⟩ := h.run hnext
    have hall := ih hstep hrest
    have htakes : takes (chain.run next.command.1 next.command.2).state = chain.takes := by
      funext response
      rw [takes, hpersistent, takes]
    rw [htakes] at hall
    rw [List.filter_cons]
    split
    · rename_i hnext
      rw [if_pos hnext, List.append_assoc] at hall
      exact hall
    · rename_i hnext
      rw [if_neg hnext] at hall
      exact hall

/-- What is read afterwards. -/
theorem Serving.madeFrom_of_load (h : Serving key evicted responses chain)
    (hroom : chain.evictions = evicted) {now : Instant} {ask : Headers} {r : Record}
    (hload : (chain.load now key ask).value = some r) : r.MadeFrom key responses := by
  cases h with
  | memory hholds _ _ hmade =>
    rw [load_alone] at hload
    have hfind := (Memory.load_eq hholds now (ask.has Headers.evictAfterRead) key).1
    have hmadeOf := hmade hroom
    rw [hfind.symm.trans hload] at hmadeOf
    exact hmadeOf
  | store hdatabase _ hmade =>
    have hread := Store.read?_of_load hload
    obtain ⟨current, hcurrent, hmadeOf⟩ := hmade fun ⟨error, herror⟩ => by
      rw [hread] at herror
      cases herror
    rw [hdatabase] at hread
    cases current with
    | none => cases hcurrent.symm.trans hread
    | some stored =>
      cases hcurrent.symm.trans hread
      exact hmadeOf

/-- **Stored dates.** Each value that is read was given by some response, and by none of those that
the tier took later. As long as none of these touched the field, its metadata give the dates of this
response, and the value does not count as fresh past its expiration. If the last that touched it had
another value there, this was an error that the stored value outlived, and the dates are those of
the error. -/
theorem dates_of_stored_values (hchain : chain.TracksDates key)
    (hresponses : ∀ response ∈ responses, response.IsPlain key)
    (hroom : (chain.after (responses.map Response.command)).evictions = chain.evictions)
    {now : Instant} {ask : Headers} {r : Record}
    (hload : ((chain.after (responses.map Response.command)).load now key ask).value = some r)
    {field : String} {value : Value} (hvalue : r.fields.find? field = some value) :
    let taken := responses.filter chain.takes
    ∃ own, Latest (Supplies field value) taken own ∧
      (Latest (Touches field) taken own → r.Carries field own.headers ∧
        ∀ (resolver : Freshness.Resolver) (clock : Instant) (ask : Headers)
          (read : Freshness.FieldRead) (date : Int64),
          own.headers.int64? Headers.expirationDate = some date →
          resolver.read? clock ask r field = some read → read.isFresh = true →
            (ask.int64? Headers.date).getD clock.seconds < date) ∧
      ∀ last other, Latest (Touches field) taken last → last.Supplies field other →
        other ≠ value → other.isError = true ∧ value.isError = false ∧
          r.Carries field last.headers := by
  have hmade := ((serving_start hchain).after hresponses).madeFrom_of_load hroom hload
  obtain ⟨own, last, hfrom⟩ := hmade.values field value hvalue
  refine ⟨own, hfrom.supplied, fun hown => ?_, fun other w hother hw hne => ?_⟩
  · have hcarries : r.Carries field own.headers := by
      obtain rfl := hfrom.touched.unique hown
      exact hfrom.dated hfrom.supplied.holds.contains
    exact ⟨hcarries, fun resolver clock ask read date hdate => hcarries.lt_of_fresh hdate⟩
  · obtain rfl := hfrom.touched.unique hother
    obtain ⟨herror, hnone⟩ := (hfrom.outlived w hw).resolve_left hne
    exact ⟨herror, hnone, hfrom.dated hw.contains⟩

/-- A value that outlives an error takes its dates, while another field keeps those it came with. -/
theorem dates_of_stored_values_error_outlived :
    let response (fields : List (String × Value)) (received expiration : Int64) : Response :=
      ⟨⟨0⟩, ⟨⟨"a"⟩, "T", .ofList fields, ∅, none⟩,
        (Headers.none.addInt64 Headers.receivedDate received).addInt64 Headers.expirationDate
          expiration⟩
    let first := response [("x", .int 1), ("y", .int 1)] 100 200
    let second := response [("x", .error ⟨"boom", []⟩)] 300 400
    let commands := [first, second].map Response.command
    let remembered := memory (Memory.new ⟨2, none, true⟩ Weigher.one) empty
    let stored := store (Store.new { trackDates := true })
    (∀ response ∈ [first, second], response.IsPlain ⟨"a"⟩) ∧
      ∀ chain ∈ [remembered, stored], chain.TracksDates ⟨"a"⟩ ∧
        (chain.after commands).evictions = chain.evictions ∧
        ∃ r x y, ((chain.after commands).load ⟨0⟩ ⟨"a"⟩ Headers.none).value = some r ∧
          r.fields.find? "x" = some x ∧ r.Carries "x" second.headers ∧
          r.fields.find? "y" = some y ∧ r.Carries "y" first.headers := by
  intro response first second commands remembered stored
  have hplain : ∀ response ∈ [first, second], response.IsPlain ⟨"a"⟩ := by
    have hfields {entries : List (String × Value)}
        (hentries : ∀ entry ∈ entries, entry.2.HasShape .exact) :
        (SortedMap.ofList entries).All (Value.HasShape .exact) := fun _ _ hfind =>
      Entries.forall_mem_ofList hentries _ (Entries.mem_of_find? hfind)
    refine List.forall_mem_cons.2 ⟨?_, List.forall_mem_singleton.2 ?_⟩
    · refine ⟨rfl, ⟨by decide +kernel, by decide +kernel⟩, by decide, hfields ?_⟩
      exact List.forall_mem_cons.2 ⟨⟨1, .int 1⟩, List.forall_mem_singleton.2 ⟨1, .int 1⟩⟩
    · refine ⟨rfl, ⟨by decide +kernel, by decide +kernel⟩, by decide, hfields ?_⟩
      exact List.forall_mem_singleton.2 ⟨2, .error (by decide)⟩
  refine ⟨hplain, ?_⟩
  have hcase (chain : Chain) (hchain : chain.TracksDates ⟨"a"⟩)
      (hroom : (chain.after commands).evictions = chain.evictions)
      (hload : (((chain.after commands).load ⟨0⟩ ⟨"a"⟩ Headers.none).value.any fun r =>
        (r.fields.find? "x").any (!·.isError) && r.fields.contains "y") = true) :
      ∃ r x y, ((chain.after commands).load ⟨0⟩ ⟨"a"⟩ Headers.none).value = some r ∧
        r.fields.find? "x" = some x ∧ r.Carries "x" second.headers ∧
        r.fields.find? "y" = some y ∧ r.Carries "y" first.headers := by
    obtain ⟨r, hr, hfields⟩ := (Option.any_eq_true _ _).1 hload
    obtain ⟨hx, hy⟩ := Bool.and_eq_true_iff.1 hfields
    obtain ⟨x, hx, hvalue⟩ := (Option.any_eq_true _ _).1 hx
    obtain ⟨y, hy⟩ := SortedMap.contains_iff.1 hy
    have htaken : [first, second].filter chain.takes = [first, second] := by
      have htakes (response : Response)
          (hstore : response.headers.has Headers.doNotStore = false)
          (hmemory : response.headers.has Headers.memoryCacheOnly = false) :
          chain.takes response = true := by
        rw [takes, hstore, hmemory, Bool.and_false]
        rfl
      exact List.filter_eq_self.2 (List.forall_mem_cons.2 ⟨htakes first (by decide) (by decide),
        List.forall_mem_singleton.2 (htakes second (by decide) (by decide))⟩)
    obtain ⟨-, -, -, houtlived⟩ := dates_of_stored_values hchain hplain hroom hr hx
    obtain ⟨own, hown, hkept, -⟩ := dates_of_stored_values hchain hplain hroom hr hy
    rw [htaken] at houtlived hown hkept
    refine ⟨r, x, y, hr, hx, ?_, hy, ?_⟩
    · have hlast : Latest (Touches "x") [first, second] second :=
        ⟨[first], [], rfl, .inl rfl, List.forall_mem_nil _⟩
      refine (houtlived second (.error ⟨"boom", []⟩) hlast rfl ?_).2.2
      rintro rfl
      cases hvalue
    · have hpasses : ¬second.Touches "y" := by
        rintro (hfield | hdated)
        · cases hfield
        · exact hdated ⟨rfl, rfl⟩
      have hfirst : Latest (Touches "y") [first, second] first :=
        ⟨[], [second], rfl, .inl rfl, List.forall_mem_singleton.2 hpasses⟩
      rcases List.mem_cons.1 hown.mem with rfl | hsecond
      · exact (hkept hfirst).1
      · obtain rfl := List.mem_singleton.1 hsecond
        exact absurd hown.holds.touches hpasses
  have hremembered : remembered.TracksDates ⟨"a"⟩ :=
    .memory (Memory.holds_new Weigher.one rfl) rfl rfl
  have hstored : stored.TracksDates ⟨"a"⟩ := .store rfl rfl rfl
  have hrememberedRoom : (remembered.after commands).evictions = remembered.evictions := by
    decide +kernel
  have hstoredRoom : (stored.after commands).evictions = stored.evictions := by decide +kernel
  exact List.forall_mem_cons.2 ⟨⟨hremembered, hrememberedRoom,
    hcase _ hremembered hrememberedRoom (by decide +kernel)⟩, List.forall_mem_singleton.2
      ⟨hstored, hstoredRoom, hcase _ hstored hstoredRoom (by decide +kernel)⟩⟩

end Chain
end RecordCache
