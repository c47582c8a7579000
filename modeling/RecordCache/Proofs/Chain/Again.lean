import RecordCache.Proofs.Chain.Alone
import RecordCache.Proofs.Chain.Sound
import RecordCache.Proofs.Memory.Again
import RecordCache.Proofs.Store.Again

/-!
# Merging a batch twice

A tier that stands alone and gets the same batch twice in a row tells no change the second time, and
keeps what it has: in memory every record, and in a store every record without floating-point
numbers. The rows of a batch are written each time, and a floating-point number that is not read
back as it was written changes every time.

* `Chain.IsAlone`, `Chain.held?`: chains of one tier, and what they have under a key;
* `Chain.merge_again`: the second call, whatever the times of both;
* `Chain.merge_again_drifts`: a store whose record is not kept.
-/

namespace RecordCache.Chain

variable {chain : Chain} {headers : Headers} {records : List Record}

/-- There is at most one tier. -/
def IsAlone : Chain → Prop
  | memory _ next => next = empty
  | _ => True

/-- What the first tier has under a key: a memory tier any record that it holds, and a store what
the row is read as. -/
def held? (key : Key) : Chain → Option (Except StorageError Record)
  | empty => none
  | store s => s.database.read? key
  | memory m _ => (m.held.find? key).map .ok

/-- **Merging twice.** The second of two calls with the same batch of distinct keys, without
floating-point numbers and without errors that replace values, returns the empty set. Unless it
evicts something it leaves every record as the first call left it, but for one thing: a store may
write a record of the batch's keys that holds a floating-point number once more, as it was read. -/
theorem merge_again (hsound : chain.Sound) (halone : chain.IsAlone) (now₁ now₂ : Instant)
    (herrors : headers.has Headers.errorsReplaceCachedValues = false)
    (hdistinct : (records.map Record.key).Nodup)
    (hrecords : ∀ r ∈ records, r.IsExact ∧
      (Blob.ofRecord r).toJson.nesting ≤ Json.depthLimit) :
    let once := chain.merge now₁ records headers .overwrite
    let twice := once.state.merge now₂ records headers .overwrite
    once.state.evictions = chain.evictions → twice.state.evictions = once.state.evictions →
      twice.value = ∅ ∧ ∀ key,
        twice.state.held? key = once.state.held? key ∨
          chain.isPersistent = true ∧ key ∈ records.map Record.key ∧
            ∃ r, once.state.held? key = some (.ok r) ∧ ¬r.IsExact ∧
              twice.state.held? key = some (.ok r.reread) := by
  cases chain with
  | empty =>
    intro once twice _ _
    exact ⟨rfl, fun _ => .inl rfl⟩
  | store s =>
    intro once twice _ _
    have hexact : ∀ r ∈ records, r.Exact := fun r hr => (hrecords r hr).1.exact (hrecords r hr).2
    obtain ⟨hnone, hread⟩ := s.merge_twice now₁ now₂ herrors hdistinct hexact
    refine ⟨hnone, fun key => (hread key).imp_right ?_⟩
    rintro ⟨hkey, r, honce, hfloat, htwice⟩
    exact ⟨rfl, hkey, r, honce, hfloat, htwice⟩
  | memory m next =>
    obtain ⟨hm, -⟩ := hsound
    have hnext : next = empty := halone
    subst hnext
    cases hskip : headers.has Headers.doNotStore with
    | true =>
      -- nothing is stored, either time
      have hmerge (m : Memory) (now : Instant) :
          (memory m empty).merge now records headers .overwrite = ⟨∅, memory m empty, []⟩ := by
        unfold merge
        rw [if_pos hskip]
      rw [hmerge m now₁]
      dsimp only
      rw [hmerge m now₂]
      exact fun _ _ => ⟨rfl, fun _ => .inl rfl⟩
    | false =>
      rw [merge_alone m now₁ records hskip]
      dsimp only
      rw [merge_alone _ now₂ records hskip]
      intro honce htwice
      obtain ⟨hnone, hheld⟩ := Memory.merge_twice hm.valid hm.keyed now₁ now₂ hdistinct
        (fun r hr => (hrecords r hr).1) honce htwice
      refine ⟨hnone, fun key => .inl ?_⟩
      exact congrArg (fun held : Contents => (held.find? key).map Except.ok) hheld

/-- A memory tier and a store that have a record, of which one field comes as an error and one is
new, and a record without fields that neither has. -/
theorem merge_again_either_tier :
    let record (name : String) (fields : List (String × Value)) : Record :=
      ⟨⟨name⟩, "T", .ofList fields, ∅, none⟩
    let stored := record "a" [("x", .int 1)]
    let records := [record "a" [("x", .error ⟨"boom", []⟩), ("y", .null)], record "b" []]
    let m := (Memory.new ⟨2, some ⟨Duration.second⟩, true⟩ Weigher.one).put ⟨0⟩ stored.key stored
    let s : Store := ⟨{}, ⟨some ⟨[(WriteDates.ofHeaders ⟨0⟩ Headers.none).row false stored],
      false⟩⟩⟩
    let headers := Headers.none.addInt64 Headers.receivedDate 5
    ∀ chain ∈ [memory m empty, store s],
      let once := chain.merge ⟨7⟩ records headers .overwrite
      let twice := once.state.merge ⟨3⟩ records headers .overwrite
      (chain.Sound ∧ chain.IsAlone ∧
        headers.has Headers.errorsReplaceCachedValues = false ∧
        (records.map Record.key).Nodup ∧
        (∀ r ∈ records, r.IsExact ∧ (Blob.ofRecord r).toJson.nesting ≤ Json.depthLimit) ∧
        once.state.evictions = chain.evictions ∧ twice.state.evictions = once.state.evictions) ∧
      twice.value = ∅ ∧ ∀ key, twice.state.held? key = once.state.held? key ∨
        chain.isPersistent = true ∧ key ∈ records.map Record.key ∧
          ∃ r, once.state.held? key = some (.ok r) ∧ ¬r.IsExact ∧
            twice.state.held? key = some (.ok r.reread) := by
  intro record stored records m s headers
  have hfields : ∀ entry ∈ [("x", Value.error ⟨"boom", []⟩), ("y", Value.null)],
      entry.2.HasShape .exact :=
    List.forall_mem_cons.2 ⟨⟨2, .error (by decide)⟩, List.forall_mem_singleton.2 ⟨0, .null⟩⟩
  have hrecords : ∀ r ∈ records, r.IsExact ∧
      (Blob.ofRecord r).toJson.nesting ≤ Json.depthLimit :=
    List.forall_mem_cons.2
      ⟨⟨⟨SortedMap.all_ofList hfields, SortedMap.all_empty⟩, by decide +kernel⟩,
        List.forall_mem_singleton.2
          ⟨⟨SortedMap.all_empty, SortedMap.all_empty⟩, by decide +kernel⟩⟩
  have hdistinct : (records.map Record.key).Nodup := by decide
  have hsound : m.Sound := (Memory.sound_new rfl _).keeps (Memory.keeps_put _ _ rfl)
  have hboth : ∀ chain ∈ [memory m empty, store s], chain.Sound ∧ chain.IsAlone :=
    List.forall_mem_cons.2 ⟨⟨⟨hsound, trivial⟩, rfl⟩,
      List.forall_mem_singleton.2 ⟨trivial, trivial⟩⟩
  have hroom : ∀ chain ∈ [memory m empty, store s],
      (chain.merge ⟨7⟩ records headers .overwrite).state.evictions = chain.evictions ∧
      ((chain.merge ⟨7⟩ records headers .overwrite).state.merge ⟨3⟩ records headers
          .overwrite).state.evictions =
        (chain.merge ⟨7⟩ records headers .overwrite).state.evictions := by
    decide +kernel
  intro chain hchain once twice
  obtain ⟨hsound, halone⟩ := hboth chain hchain
  obtain ⟨honce, htwice⟩ := hroom chain hchain
  exact ⟨⟨hsound, halone, rfl, hdistinct, hrecords, honce, htwice⟩,
    merge_again hsound halone ⟨7⟩ ⟨3⟩ rfl hdistinct hrecords honce htwice⟩

/-- A store does not keep a record that holds a floating-point number which is not read back as it
was written, although the batch holds none. -/
theorem merge_again_drifts :
    let record (field : String) (value : Value) : Record :=
      ⟨⟨"a"⟩, "T", .ofList [(field, value)], ∅, none⟩
    let chain := store ((Store.new {}).merge ⟨0⟩ [record "x" (.float ⟨0x3905B7A44EE17958⟩)]
      Headers.none .overwrite).state
    let records := [record "y" (.int 1)]
    let once := chain.merge ⟨1⟩ records Headers.none .overwrite
    let twice := once.state.merge ⟨2⟩ records Headers.none .overwrite
    (chain.Sound ∧ chain.IsAlone ∧
      Headers.none.has Headers.errorsReplaceCachedValues = false ∧
      (records.map Record.key).Nodup ∧
      (∀ r ∈ records, r.IsExact ∧ (Blob.ofRecord r).toJson.nesting ≤ Json.depthLimit) ∧
      (chain.held? ⟨"a"⟩).all Except.isOk = true ∧
      once.state.evictions = chain.evictions ∧ twice.state.evictions = once.state.evictions) ∧
    twice.state.held? ⟨"a"⟩ ≠ once.state.held? ⟨"a"⟩ := by
  intro record chain records once twice
  have hrecords : ∀ r ∈ records, r.IsExact ∧
      (Blob.ofRecord r).toJson.nesting ≤ Json.depthLimit :=
    List.forall_mem_singleton.2 ⟨⟨SortedMap.all_empty.insert ⟨1, .int 1⟩, SortedMap.all_empty⟩,
      by decide +kernel⟩
  have hreadable : (chain.held? ⟨"a"⟩).all Except.isOk = true := by decide +kernel
  have hnone (s : Store) : (store s).evictions = 0 := rfl
  have honce : once.state.evictions = 0 := hnone _
  have htwice : twice.state.evictions = 0 := hnone _
  refine ⟨⟨trivial, trivial, rfl, by decide, hrecords, hreadable, honce.trans (hnone _).symm,
    htwice.trans honce.symm⟩, fun hsame => ?_⟩
  let first : Value := .float ⟨0x3905B7A44EE17959⟩
  have hvalue := congrArg (fun read =>
    ((read.bind Except.toOption).bind (·.fields.find? "x")).map first.equals) hsame
  revert hvalue
  decide +kernel

end RecordCache.Chain
