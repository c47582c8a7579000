import RecordCache.Proofs.Chain.Load
import RecordCache.Proofs.Chain.Trace
import RecordCache.Proofs.Memory.Keeps
import RecordCache.Proofs.Store.Load

/-!
# What commands keep

A command leaves the tiers of a chain in their order, and in each memory tier it does nothing but
what memory tiers do, so that it keeps what these keep. Of the persistent tier nothing is said.

* `Chain.Keeps` says so of two chains, tier by tier;
* `Chain.keeps_load`, `keeps_loadAll`, `keeps_merge`: by induction on the tiers;
* `Chain.keeps_tiers`: the calls that do the same in every tier, with `Chain.keeps_removeKeys`,
  `keeps_clear` and their like;
* `Chain.keeps_run`: every command.
-/

namespace RecordCache.Chain

/-- In every memory tier the records are under their own keys. -/
def Keyed : Chain → Prop
  | empty => True
  | store _ => True
  | memory m next => m.lru.All Memory.IsKeyed ∧ next.Keyed

/-- The second chain has the tiers of the first, and each memory tier keeps what memory tiers
keep. -/
inductive Keeps : Chain → Chain → Prop
  | empty : Keeps empty empty
  | store (s s' : Store) : Keeps (store s) (store s')
  | memory {m m' : Memory} {next next' : Chain} : Memory.Keeps m m' → Keeps next next' →
    Keeps (memory m next) (memory m' next')

theorem Keeps.refl (chain : Chain) : chain.Keeps chain := by
  induction chain with
  | empty => exact .empty
  | store s => exact .store s s
  | memory m next ih => exact .memory (.refl m) ih

variable {chain : Chain} (now : Instant)

/-- A read, which gives a record of the key that it is asked for. -/
theorem keeps_load (h : chain.Keyed) (key : Key) (headers : Headers) :
    chain.Keeps (chain.load now key headers).state ∧
      ∀ r, (chain.load now key headers).value = some r → r.key = key := by
  induction chain with
  | empty => exact ⟨.empty, fun r hr => by cases hr⟩
  | store s => exact ⟨.store s _, fun r hr => Store.key_of_load hr⟩
  | memory m next ih =>
    obtain ⟨hkeyed, hnext⟩ := h
    obtain ⟨hstate, hkey⟩ := ih hnext
    have hread := Memory.keeps_load m now (headers.has Headers.evictAfterRead) key
    cases hpeek : m.lru.peek now key with
    | some r =>
      rw [load_hit headers hpeek]
      refine ⟨.memory hread (.refl next), fun r' hr => ?_⟩
      cases hr
      exact hkeyed.of_peek hpeek
    | none =>
      rw [load_miss headers hpeek]
      refine ⟨.memory ?_ hstate, hkey⟩
      cases hvalue : (next.load now key headers).value with
      | none => exact hread
      | some r =>
        rw [Option.elim_some]
        split
        · exact hread
        · exact hread.trans (Memory.keeps_put _ now (hkey r hvalue))

theorem keeps_loadAll (chain : Chain) (keys : List Key) (headers : Headers) :
    chain.Keeps (chain.loadAll now keys headers).state := by
  induction chain generalizing keys with
  | empty => exact .empty
  | store s => exact .store s _
  | memory m next ih =>
    have hread := Memory.keeps_loadAll m now (headers.has Headers.evictAfterRead) keys ⟨∅, []⟩
    rw [loadAll]
    dsimp only
    split
    · exact .memory hread (.refl next)
    · refine .memory ?_ (ih _)
      split
      · exact hread
      · exact hread.trans (Memory.keeps_foldl_put _ now _)

theorem keeps_merge (chain : Chain) (records : List Record) (headers : Headers)
    (merger : Merger) : chain.Keeps (chain.merge now records headers merger).state := by
  induction chain with
  | empty => exact .empty
  | store s => exact .store s _
  | memory m next ih =>
    rw [merge]
    split
    · exact .refl _
    · exact .memory (Memory.keeps_merge m now records headers merger) ih

/-- A call that does something in each memory tier that keeps the tier's state. -/
theorem keeps_tiers {α : Type} {f : Chain → Outcome Chain α} {onMemory : Memory → Memory}
    {onStore : Store → Store} (hempty : (f empty).state = empty)
    (hstore : ∀ s, (f (store s)).state = store (onStore s))
    (hmemory : ∀ m next, (f (memory m next)).state = memory (onMemory m) (f next).state)
    (hkeeps : ∀ m, Memory.Keeps m (onMemory m)) (chain : Chain) : chain.Keeps (f chain).state := by
  induction chain with
  | empty =>
    rw [hempty]
    exact .empty
  | store s =>
    rw [hstore]
    exact .store s _
  | memory m next ih =>
    rw [hmemory]
    exact .memory (hkeeps m) ih

theorem keeps_removeKeys (chain : Chain) (keys : List Key) (cascade : Bool) :
    chain.Keeps (chain.removeKeys now keys cascade).state :=
  keeps_tiers (f := (removeKeys now keys cascade ·)) rfl (fun _ => rfl) (fun _ _ => rfl)
    (Memory.keeps_removeKeys · now keys cascade) chain

theorem keeps_removeMatched (chain : Chain) (pattern : Pattern) :
    chain.Keeps (chain.removeMatched now pattern).state :=
  keeps_tiers (f := (removeMatched now pattern ·)) rfl (fun _ => rfl) (fun _ _ => rfl)
    (Memory.keeps_removeWhere · now fun key _ => pattern.accepts key) chain

theorem keeps_removeTypes (chain : Chain) (types : List String) :
    chain.Keeps (chain.removeTypes now types).state :=
  keeps_tiers (f := (removeTypes now types ·)) rfl (fun _ => rfl) (fun _ _ => rfl)
    (Memory.keeps_removeWhere · now fun _ r => types.contains r.typeName) chain

theorem keeps_clear (chain : Chain) : chain.Keeps chain.clear.state :=
  keeps_tiers (f := clear) rfl (fun _ => rfl) (fun _ _ => rfl) Memory.keeps_clear chain

theorem keeps_dump (chain : Chain) : chain.Keeps (chain.dump now).state :=
  keeps_tiers (f := (dump now ·)) rfl (fun _ => rfl) (fun _ _ => rfl) Memory.Keeps.refl chain

theorem keeps_trim (chain : Chain) (maxSize : Nat) (factor : Binary64) (sizes : FileSizes) :
    chain.Keeps (chain.trim maxSize factor sizes).state :=
  keeps_tiers (f := trim maxSize factor sizes) rfl (fun _ => rfl) (fun _ _ => rfl)
    Memory.Keeps.refl chain

/-- **One command.** -/
theorem keeps_run (h : chain.Keyed) (command : Command) :
    chain.Keeps (chain.run now command).state := by
  cases command with
  | load key headers => exact (keeps_load now h key headers).1
  | loadAll keys headers => exact keeps_loadAll now chain keys headers
  | merge records headers merger => exact keeps_merge now chain records headers merger
  | remove key cascade => exact keeps_removeKeys now chain [key] cascade
  | removeAll keys cascade => exact keeps_removeKeys now chain keys cascade
  | removeMatching source =>
    rw [run, removeMatching]
    cases Pattern.parse source with
    | error error => exact .refl chain
    | ok pattern => exact keeps_removeMatched now chain pattern
  | removeTypes types => exact keeps_removeTypes now chain types
  | clear => exact keeps_clear chain
  | dump => exact keeps_dump now chain
  | trim maxSize factor sizes => exact keeps_trim chain maxSize factor sizes
  | name => exact .refl chain

end RecordCache.Chain
