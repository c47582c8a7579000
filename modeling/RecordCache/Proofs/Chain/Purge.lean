import RecordCache.Proofs.Chain.Sound
import RecordCache.Proofs.Lru.Live
import RecordCache.Proofs.Store.Removal

/-!
# Removing by a pattern in every tier

A memory tier asks the pattern itself which keys match, and the persistent tier asks the table with
its glob. Both find the same keys, so that after a removal no tier has a record that another has
lost to it, and a text that is no pattern is refused before any tier is touched.

* `Memory.Purged`: what a removal leaves of a memory tier, and `Chain.Purged` of a chain, with the
  number of records that each tier lost;
* `Memory.purged_removeWhere`, `Chain.purged_removeMatched`: one tier, and by induction all;
* `Chain.removeMatching_everywhere`: the call as a whole.
-/

namespace RecordCache

/-- The live records whose keys are not doomed are left, each as it was and in the order of their
last use. -/
structure Memory.Purged (now : Instant) (doomed : Key → Bool) (m m' : Memory) : Prop where
  config : m'.config = m.config
  settings : Lru.SameSettings m.lru m'.lru
  entries : m'.lru.entries =
    m.lru.entries.filter fun key entry => !m.lru.isExpired now entry && !doomed key
  listed : m'.lru.snapshot now = (m.lru.snapshot now).filter fun pair => !doomed pair.1

theorem Memory.purged_removeWhere {m : Memory} (h : m.Sound) (now : Instant)
    (doomed : Key → Bool) :
    (m.removeWhere now fun key _ => doomed key).1 =
        (m.lru.snapshot now).countP (fun pair => doomed pair.1) ∧
      Memory.Purged now doomed m (m.removeWhere now fun key _ => doomed key).2 := by
  obtain ⟨hlisted, hcount⟩ := Lru.snapshot_removeWhere h.valid now fun key _ => doomed key
  obtain ⟨-, hfind⟩ := Lru.removeWhere_spec h.valid now fun key _ => doomed key
  have hsettings := Lru.settings_removeWhere m.lru now fun key _ => doomed key
  refine ⟨hcount, rfl, hsettings, SortedMap.ext fun key => ?_, hlisted⟩
  rw [SortedMap.find?_filter]
  exact hfind key

namespace Chain

/-- Every tier is left without the records of doomed keys, the persistent tier without their rows;
so many are gone from each. -/
inductive Purged (now : Instant) (doomed : Key → Bool) : List Nat → Chain → Chain → Prop
  | empty : Purged now doomed [] empty empty
  | store (s : Store) : Purged now doomed [s.database.rowKeys.countP doomed] (store s)
    (store { s with database := s.database.without doomed })
  | memory {m m' : Memory} {next next' : Chain} {counts : List Nat} : m.Purged now doomed m' →
    Purged now doomed counts next next' →
    Purged now doomed ((m.lru.snapshot now).countP (fun pair => doomed pair.1) :: counts)
      (memory m next) (memory m' next')

/-- By induction on the tiers. -/
theorem purged_removeMatched {chain : Chain} (h : chain.Sound) (now : Instant) {pattern : Pattern}
    (hserves : ∀ s, chain.store? = some s →
      ∀ key ∈ s.database.rowKeys, Glob.Serves pattern.glob key) :
    ∃ counts, (chain.removeMatched now pattern).value = counts.foldr max 0 ∧
      Purged now pattern.accepts counts chain (chain.removeMatched now pattern).state := by
  induction chain with
  | empty => exact ⟨[], rfl, .empty⟩
  | store s =>
    obtain ⟨hcount, hstate⟩ := s.removeMatching_eq (hserves s rfl)
    have hpurged : Purged now pattern.accepts _ (store s) _ := .store s
    rw [← hstate] at hpurged
    refine ⟨[s.database.rowKeys.countP pattern.accepts], ?_, hpurged⟩
    rw [List.foldr_cons, List.foldr_nil, Nat.max_zero]
    exact hcount
  | memory m next ih =>
    obtain ⟨hm, hnext⟩ := h
    obtain ⟨counts, hcounts, hpurged⟩ := ih hnext hserves
    obtain ⟨hcount, hmemory⟩ := Memory.purged_removeWhere hm now pattern.accepts
    refine ⟨_, ?_, .memory hmemory hpurged⟩
    rw [List.foldr_cons, ← hcounts, ← hcount]
    rfl

/-- **Removing by a pattern.** A key is accepted by a pattern exactly if its glob matches it. A text
that is no pattern is refused, and nothing changes in any tier; any other text leaves in every tier
of the chain, however many there are, the live records whose keys do not match, and gives the
largest number of records that a tier has lost. The rows of the persistent tier are found by the
glob, as globs are documented. -/
theorem removeMatching_everywhere {chain : Chain} (h : chain.Sound) (now : Instant)
    (source : String)
    (hglob : ∀ pattern, Pattern.parse source = .ok pattern → ∀ s, chain.store? = some s →
      ∀ key ∈ s.database.rowKeys, Glob.Documented pattern.glob key) :
    (∀ pattern, Pattern.parse source = .ok pattern → ∀ key : Key,
      (Glob.Matches pattern.glob.toList key.text.toList ↔ pattern.accepts key = true)) ∧
    (∀ error, Pattern.parse source = .error error →
      chain.removeMatching now source = ⟨.error error, chain, []⟩) ∧
    ∀ pattern, Pattern.parse source = .ok pattern → ∃ counts,
      (chain.removeMatching now source).value = .ok (counts.foldr max 0) ∧
      Purged now pattern.accepts counts chain (chain.removeMatching now source).state := by
  refine ⟨fun pattern _ key => pattern.matches_glob key, fun error herror => ?_,
    fun pattern hparse => ?_⟩
  · rw [removeMatching, herror]
  · have hserves : ∀ s, chain.store? = some s →
        ∀ key ∈ s.database.rowKeys, Glob.Serves pattern.glob key :=
      fun s hs key hkey => Pattern.documented_iff.1 (hglob pattern hparse s hs key hkey)
    obtain ⟨counts, hcounts, hpurged⟩ := purged_removeMatched h now hserves
    rw [removeMatching, hparse]
    exact ⟨counts, congrArg Except.ok hcounts, hpurged⟩

/-- Two memory tiers, the front one with room for one record that it keeps for a second, and a store
behind them. The pattern has an asterisk as a literal, next to one that stands for any run. -/
theorem removeMatching_everywhere_asterisks :
    let record (name : String) : Record := (Record.new ⟨name⟩ "T").withField "x" (.int 1)
    let records := [record "a*1", record "ab", record "a*["]
    let memory₁ := ((Memory.new ⟨1, some ⟨Duration.second⟩, false⟩ Weigher.one).merge ⟨0⟩ records
      Headers.none Merger.overwrite).2
    let memory₂ := ((Memory.new ⟨3, none, false⟩ Weigher.one).merge ⟨0⟩ records
      Headers.none Merger.overwrite).2
    let rows := records.map ((WriteDates.ofHeaders ⟨0⟩ Headers.none).row false)
    let chain := memory memory₁ (memory memory₂ (store ⟨{}, ⟨some ⟨rows, false⟩⟩⟩))
    let pattern : Pattern := ⟨"a*%", [.literal 'a', .literal '*', .anyRun]⟩
    (chain.Sound ∧ Pattern.parse "a*%" = .ok pattern ∧ ∀ s, chain.store? = some s →
      ∀ key ∈ s.database.rowKeys, Glob.Documented pattern.glob key) ∧
    ∃ counts, (chain.removeMatching ⟨7⟩ "a*%").value = .ok (counts.foldr max 0) ∧
      Purged ⟨7⟩ pattern.accepts counts chain (chain.removeMatching ⟨7⟩ "a*%").state := by
  intro record records memory₁ memory₂ rows chain pattern
  have hsound : chain.Sound :=
    ⟨(Memory.sound_new rfl _).keeps (Memory.keeps_merge ..),
      (Memory.sound_new rfl _).keeps (Memory.keeps_merge ..), trivial⟩
  have hparse : Pattern.parse "a*%" = .ok pattern := by decide +kernel
  have hplain : ∀ r ∈ records, Glob.IsPlain r.key.text.toList := by decide +kernel
  have hglob : ∀ s, chain.store? = some s →
      ∀ key ∈ s.database.rowKeys, Glob.Documented pattern.glob key := by
    rintro s ⟨⟩ key hkey
    obtain ⟨row, hrow, rfl⟩ := List.mem_map.1 hkey
    obtain ⟨r, hr, rfl⟩ := List.mem_map.1 hrow
    exact Pattern.documented_iff.2
      (Glob.serves_of_plain (by decide +kernel) (by decide +kernel) (hplain r hr))
  refine ⟨⟨hsound, hparse, hglob⟩, ?_⟩
  refine (removeMatching_everywhere hsound ⟨7⟩ "a*%" fun found hfound => ?_).2.2 pattern hparse
  rw [hparse] at hfound
  cases hfound
  exact hglob

end Chain
end RecordCache
