import RecordCache.Proofs.Chain.Sound
import RecordCache.Proofs.Chain.WriteThrough
import RecordCache.Proofs.Memory.Live

/-!
# Reading a record twice

A read changes every memory tier in front of the one that serves it: it drops a record that has
expired, moves the one it finds to the end, and writes back what comes from behind, which may drop
others or the record itself. A second read at the same moment gives the same, since a tier that does
not hold the record lets the read through to one that gave it before.

* `Memory.Admitted`: a tier holds a record exactly if the record fits by itself, after it was found
  there (`Sound.admitted_of_peek`) or written (`Sound.admitted_put`);
* `Chain.load_again`: the second read, by induction on the tiers;
* `Chain.loadAll_singleton`: a batch of one key;
* `Chain.repeats_load`: all of this together.
-/

namespace RecordCache

namespace Memory

/-- A tier holds a record under a key, as a live one, exactly if the record fits by itself. -/
structure Admitted (now : Instant) (key : Key) (r : Record) (m : Memory) : Prop where
  live : m.lru.peek now key = if m.lru.weigh key r ≤ m.lru.maxWeight then some r else none
  held : m.lru.contents.find? key = if m.lru.weigh key r ≤ m.lru.maxWeight then some r else none

variable {m : Memory} (now : Instant) {key : Key} {r : Record}

theorem Sound.admitted_of_peek (h : m.Sound) (hpeek : m.lru.peek now key = some r) :
    Admitted now key r m := by
  have hfits := h.valid.all_fit.of_peek hpeek
  exact ⟨by rw [if_pos hfits, hpeek], by rw [if_pos hfits, Lru.find?_contents_of_peek hpeek]⟩

theorem Sound.admitted_put (h : m.Sound) (key : Key) (r : Record) :
    Admitted now key r (m.put now key r) := by
  have hsettings := Lru.settings_insert h.valid now key r
  have hpeek : (m.put now key r).lru.peek now key = _ :=
    Lru.peek_insert h.valid h.lasting now key r
  constructor
  · rw [hpeek, put, hsettings.weigh, hsettings.maxWeight]
  · rw [put, hsettings.weigh, hsettings.maxWeight]
    by_cases hfits : m.lru.weigh key r ≤ m.lru.maxWeight
    · rw [if_pos hfits, Lru.find?_contents, Lru.find?_insert_of_fits h.valid hfits]
      rfl
    · rw [if_neg hfits, Lru.find?_contents,
        Lru.find?_insert_of_heavy h.valid (Nat.lt_of_not_le hfits)]
      rfl

/-- A tier that has admitted a record gives it, or lets a read through. -/
theorem Admitted.or_eq (h : Admitted now key r m) : (m.lru.peek now key).or (some r) = some r := by
  rw [h.live]
  split <;> rfl

/-- A read that does not evict changes nothing that a look shows. -/
theorem peek_load (m : Memory) (now : Instant) (key : Key) :
    (m.load now false key).2.lru.peek now key = m.lru.peek now key := by
  have hlive : (m.load now false key).2.live now = m.live now := (m.load_live now false key).2
  rw [← Lru.find?_live, ← Lru.find?_live]
  exact congrArg (SortedMap.find? · key) hlive

end Memory

namespace Chain

variable {chain next : Chain} {m : Memory} {headers : Headers} (now : Instant) (key : Key)

/-- A memory tier that a record was read through has admitted it. -/
theorem load_admitted (hm : m.Sound) (hkeep : headers.has Headers.evictAfterRead = false)
    {r : Record} (hr : ((memory m next).load now key headers).value = some r) :
    ∃ m' next', ((memory m next).load now key headers).state = memory m' next' ∧
      Lru.SameSettings m.lru m'.lru ∧ m'.Admitted now key r := by
  have hread := (Memory.keeps_load m now false key).lru hm.valid
  have hmissed := hm.keeps (Memory.keeps_load m now false key)
  cases hpeek : m.lru.peek now key with
  | some found =>
    rw [load_hit headers hpeek, hkeep] at hr ⊢
    cases hr
    refine ⟨_, _, rfl, hread.2.1, hmissed.admitted_of_peek now ?_⟩
    rw [Memory.peek_load, hpeek]
  | none =>
    rw [load_miss headers hpeek] at hr ⊢
    dsimp only at hr ⊢
    rw [hr, hkeep]
    exact ⟨_, _, rfl, hread.2.1.trans (Lru.settings_insert hmissed.valid now key r),
      hmissed.admitted_put now key r⟩

/-- **The second read.** By induction on the tiers: a tier that has the record gives it again, and
one that does not has admitted it, or lets the read through to the tiers behind, which give it
again. -/
theorem load_again (h : chain.Sound) (hkeep : headers.has Headers.evictAfterRead = false) :
    ((chain.load now key headers).state.load now key headers).value =
      (chain.load now key headers).value := by
  induction chain with
  | empty => rfl
  | store s =>
    have hstate : ((store s).load now key headers).state = store s :=
      congrArg store (s.load_state [key] hkeep)
    rw [hstate]
  | memory m next ih =>
    cases hpeek : m.lru.peek now key with
    | some r =>
      rw [load_hit headers hpeek, hkeep]
      dsimp only
      rw [load_memory_value, Memory.peek_load, hpeek, Option.some_or]
    | none =>
      have hmissed := h.1.keeps (Memory.keeps_load m now false key)
      rw [load_miss headers hpeek, hkeep]
      dsimp only
      rw [load_memory_value, ih h.2]
      cases (next.load now key headers).value with
      | none => rw [Option.elim_none, Memory.peek_load, hpeek, Option.none_or]
      | some r => exact (hmissed.admitted_put now key r).or_eq now

/-- A record that was found alone. -/
theorem inOrder_insert (key : Key) (r : Record) :
    Batch.inOrder (SortedMap.insert ∅ key r) [key] = [r] := by
  rw [Batch.inOrder, SortedMap.find?_insert_self]
  rfl

/-- A batch of one key is a read of it. -/
theorem loadAll_singleton (h : chain.Sound) (headers : Headers) :
    chain.loadAll now [key] headers = (chain.load now key headers).mapValue Option.toList := by
  induction chain with
  | empty => rfl
  | store s =>
    have hvalue : (s.load [key] headers).value = (s.load [key] headers).value.head?.toList := by
      rcases s.load_value [key] headers with hnone | ⟨records, -, hfound⟩
      · rw [hnone]
        rfl
      · rw [hfound, Store.head?_inOrder, Batch.inOrder]
        cases (Batch.byKey records).find? key <;> rfl
    rw [loadAll, load]
    exact congrArg (fun value => Outcome.mk value _ _) hvalue
  | memory m next ih =>
    have hkey := (sound_load now h.2 key headers).2
    rw [loadAll, load]
    cases hread : m.load now (headers.has Headers.evictAfterRead) key with
    | mk found m' =>
      simp only [Memory.loadAll, hread]
      cases found with
      | some r => exact congrArg (fun value => Outcome.mk value _ _) (inOrder_insert key r)
      | none =>
        rw [List.reverse_singleton, ih h.2]
        generalize next.load now key headers = outcome at hkey ⊢
        obtain ⟨value, behind, reports⟩ := outcome
        cases value with
        | none => cases headers.has Headers.evictAfterRead <;> rfl
        | some r =>
          cases hkey r rfl
          have hvalue := inOrder_insert r.key r
          cases headers.has Headers.evictAfterRead <;>
            exact congrArg (fun value => Outcome.mk value _ _) hvalue

/-- What a read comes to when it is followed by another one, of one key or of a batch, at the same
moment. The second gives what the first gave; the persistent tier is as it was; and if the first
tier is a memory tier, it holds the record that was given exactly if that fits by itself. -/
structure Repeats (headers : Headers) (chain : Chain) : Prop where
  again : ((chain.load now key headers).state.load now key headers).value =
    (chain.load now key headers).value
  batch : ((chain.load now key headers).state.loadAll now [key] headers).value =
    (chain.load now key headers).value.toList
  rows : (chain.load now key headers).state.store? = chain.store?
  head : ∀ m next r, chain = memory m next → (chain.load now key headers).value = some r →
    ∃ m' next', (chain.load now key headers).state = memory m' next' ∧
      Lru.SameSettings m.lru m'.lru ∧ m'.Admitted now key r

/-- **Reading twice.** A read that does not evict can be repeated in every sound chain, and so in
every state of a chain that was built and is in use (`sound_assemble`, `sound_after`). -/
theorem repeats_load (h : chain.Sound) (hkeep : headers.has Headers.evictAfterRead = false) :
    Repeats now key headers chain where
  again := load_again now key h hkeep
  batch := by
    rw [loadAll_singleton now key (sound_load now h key headers).1]
    exact congrArg Option.toList (load_again now key h hkeep)
  rows := chain.load_store? now key hkeep
  head m next r hchain hr := by
    rw [hchain] at h hr ⊢
    exact load_admitted now key h.1 hkeep hr

/-- The record is in the table only. The first tier has no room for it and the second has; both are
read through twice. -/
theorem repeats_load_written_back :
    let record : Record := (Record.new ⟨"a"⟩ "T").withField "x" (.int 1)
    let rows := [(WriteDates.ofHeaders ⟨0⟩ Headers.none).row false record]
    let small := Memory.new ⟨4, none, false⟩ Weigher.bytes
    let large := Memory.new ⟨4096, some ⟨Duration.second⟩, false⟩ Weigher.bytes
    let chain := memory small (memory large (store ⟨{}, ⟨some ⟨rows, false⟩⟩⟩))
    let first := chain.load ⟨7⟩ ⟨"a"⟩ Headers.none
    (chain.Sound ∧ Headers.none.has Headers.evictAfterRead = false) ∧
      Repeats ⟨7⟩ ⟨"a"⟩ Headers.none chain ∧
      (first.value.map fun r => r.key.text) = some "a" ∧
      (match first.state with
        | memory m (memory m' _) => [m, m'].map fun m => (m.lru.peek ⟨7⟩ ⟨"a"⟩).isSome
        | _ => []) = [false, true] := by
  intro record rows small large chain first
  have hsound : chain.Sound :=
    ⟨Memory.sound_new rfl _, Memory.sound_new rfl _, trivial⟩
  exact ⟨⟨hsound, rfl⟩, repeats_load ⟨7⟩ ⟨"a"⟩ hsound rfl, by decide +kernel, by decide +kernel⟩

end Chain
end RecordCache
