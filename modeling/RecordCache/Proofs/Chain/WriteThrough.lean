import RecordCache.Chain.Build
import RecordCache.Proofs.Chain.Trace
import RecordCache.Proofs.SortedMap

/-!
# Writing through a chain

Memory tiers in front of a persistent tier keep no write from it and add none: whatever they hold,
drop or answer themselves, the rows are those of a persistent tier that is used alone.

* `Chain.inFront` puts memory tiers in front of a store;
* `Outcome.Follows`: an outcome of a chain beside one of its store alone, after which the stores
  are equal;
* `Chain.merge_follows`, `Chain.removal_follows`, `clear_follows` and their like: one lemma for each
  kind of operation, by induction on the tiers;
* `Reply.Covers`: what the reply of a chain may say more than that of its store;
* `Meter`, `Chain.measured`: what the trims of a run find the file to measure;
* `Chain.trace_inFront`: the two runs side by side.
-/

namespace RecordCache

/-- Whether a command removes what it reads. -/
def Command.evicts : Command → Bool
  | .load _ headers => headers.has Headers.evictAfterRead
  | .loadAll _ headers => headers.has Headers.evictAfterRead
  | _ => false

/-- The command, with what its trim finds. -/
def Command.measured (sizes : FileSizes) : Command → Command
  | .trim maxSize factor _ => .trim maxSize factor sizes
  | command => command

@[simp] theorem Command.evicts_measured (sizes : FileSizes) (command : Command) :
    (command.measured sizes).evicts = command.evicts := by
  cases command <;> rfl

/-- What the file of a persistent tier measures at a trim, by everything that the tier has held and
was told since the run began, the trim itself first. -/
abbrev Meter := List (Option Store × Instant × Command) → FileSizes

/-- The reply of a chain says at least what its store would say alone: a merge names no fewer
paths, a removal counts no fewer records, and a trim gives the same size. A load may say anything,
as the tiers in front may hold records that the store does not. -/
def Reply.Covers : Reply → Reply → Prop
  | .changed paths, .changed direct =>
    ∀ path, direct.contains path = true → paths.contains path = true
  | .count n, .count direct => direct ≤ n
  | .flag b, .flag direct => direct = true → b = true
  | .refused error, .refused direct => error = direct
  | .size n, .size direct => n = direct
  | .record _, .record _ => True
  | .records _, .records _ => True
  | .dump _, .dump _ => True
  | .done, .done => True
  | .name _, .name _ => True
  | _, _ => False

/-- An outcome of a chain beside one of its store: the store at the end of the chain is left as
alone, and the values are related. -/
structure Outcome.Follows {α : Type} (covers : α → α → Prop) (outcome : Outcome Chain α)
    (direct : Outcome Store α) : Prop where
  store : outcome.state.store? = some direct.state
  value : covers outcome.value direct.value

/-- What a chain says behind a memory tier, that tier may only add to. -/
theorem Outcome.Follows.behind {α : Type} {covers : α → α → Prop} {outcome : Outcome Chain α}
    {direct : Outcome Store α} (h : outcome.Follows covers direct) (m : Memory) {f : α → α}
    (hf : ∀ a b, covers a b → covers (f a) b) :
    ((outcome.mapState (Chain.memory m)).mapValue f).Follows covers direct :=
  ⟨h.store, hf _ _ h.value⟩

namespace Store

/-- A transaction that does not change the table leaves the store as it was. -/
theorem run_state_eq {α : Type} (s : Store) (operation : String) (fallback : α)
    {transaction : Database → Except StorageError (α × Database)}
    (h : ∀ value db, transaction s.database = .ok (value, db) → db = s.database) :
    (s.run operation fallback transaction).state = s := by
  unfold run
  split
  · rename_i value db heq
    rw [h value db heq]
  · rfl

/-- A load that does not evict leaves the store as it was. -/
theorem load_state (s : Store) (keys : List Key) {headers : Headers}
    (h : headers.has Headers.evictAfterRead = false) : (s.load keys headers).state = s := by
  unfold load
  split
  · rfl
  · refine s.run_state_eq _ _ fun value db hload => ?_
    unfold loadIn at hload
    cases hselect : s.database.select s.config.maxParameters keys with
    | error error => simp [hselect, bind, Except.bind] at hload
    | ok records =>
      simp [hselect, h, bind, Except.bind, pure, Except.pure] at hload
      exact hload.2.symm

/-- Listing the records leaves the store as it was. -/
theorem dump_state (s : Store) : s.dump.state = s := by
  refine s.run_state_eq _ _ fun value db hdump => ?_
  cases hselect : s.database.selectAll with
  | error error => simp [hselect, bind, Except.bind] at hdump
  | ok records =>
    simp [hselect, bind, Except.bind, pure, Except.pure] at hdump
    exact hdump.2.symm

end Store

namespace Chain

/-- Memory tiers, fastest first, in front of a store. -/
def inFront (memories : List Memory) (s : Store) : Chain := memories.foldr memory (store s)

theorem store?_inFront (memories : List Memory) (s : Store) :
    (inFront memories s).store? = some s := by
  induction memories with
  | nil => rfl
  | cons m memories ih => exact ih

variable {chain : Chain} {s : Store}

theorem load_store? (chain : Chain) (now : Instant) (key : Key) {headers : Headers}
    (hkeep : headers.has Headers.evictAfterRead = false) :
    (chain.load now key headers).state.store? = chain.store? := by
  induction chain with
  | empty => rfl
  | store s => exact congrArg some (s.load_state [key] hkeep)
  | memory m next ih =>
    unfold load
    dsimp only
    split
    · rfl
    · exact ih

theorem loadAll_store? (chain : Chain) (now : Instant) (keys : List Key) {headers : Headers}
    (hkeep : headers.has Headers.evictAfterRead = false) :
    (chain.loadAll now keys headers).state.store? = chain.store? := by
  induction chain generalizing keys with
  | empty => rfl
  | store s => exact congrArg some (s.load_state keys hkeep)
  | memory m next ih =>
    simp only [loadAll]
    split
    · rfl
    · exact ih _

theorem dump_store? (h : chain.store? = some s) (now : Instant) :
    (chain.dump now).state.store? = some s := by
  induction chain with
  | empty => cases h
  | store t =>
    cases h
    exact congrArg some s.dump_state
  | memory m next ih => exact ih h

/-- A merge reaches the store with the records as they came, and its paths are among those given. -/
theorem merge_follows (h : chain.store? = some s) (now : Instant) (records : List Record)
    (headers : Headers) (merger : Merger) :
    (chain.merge now records headers merger).Follows
      (fun paths direct => ∀ path, direct.contains path = true → paths.contains path = true)
      (s.merge now records headers merger) := by
  induction chain with
  | empty => cases h
  | store t =>
    cases h
    exact ⟨rfl, fun _ hpath => hpath⟩
  | memory m next ih =>
    unfold merge
    split
    · rename_i hskip
      have hdirect : s.merge now records headers merger = ⟨∅, s, []⟩ := by
        simp [Store.merge, hskip]
      rw [hdirect]
      exact ⟨h, fun _ hpath => hpath⟩
    · refine (ih h).behind _ fun paths direct hpaths path hpath => ?_
      rw [SortedSet.contains_union, hpaths path hpath, Bool.or_true]

/-- A removal that gives the largest count of any tier reaches the store, and the count of the store
is no larger. -/
theorem removal_follows {f : Chain → Outcome Chain Nat} {onStore : Store → Outcome Store Nat}
    (onMemory : Memory → Nat × Memory)
    (hstore : ∀ s, f (store s) = (onStore s).mapState store)
    (hmemory : ∀ m next, f (memory m next) =
      ((f next).mapState (memory (onMemory m).2)).mapValue (max (onMemory m).1))
    (h : chain.store? = some s) : (f chain).Follows (fun n direct => direct ≤ n) (onStore s) := by
  induction chain with
  | empty => cases h
  | store t =>
    cases h
    rw [hstore]
    exact ⟨rfl, Nat.le_refl _⟩
  | memory m next ih =>
    rw [hmemory]
    exact (ih h).behind _ fun n direct hle => Nat.le_trans hle (Nat.le_max_right _ _)

theorem removeKeys_follows (h : chain.store? = some s) (now : Instant) (keys : List Key)
    (cascade : Bool) :
    (chain.removeKeys now keys cascade).Follows (fun n direct => direct ≤ n)
      (s.removeKeys keys cascade) :=
  removal_follows (f := (removeKeys now keys cascade ·)) (Memory.removeKeys · now keys cascade)
    (fun _ => rfl) (fun _ _ => rfl) h

theorem removeMatched_follows (h : chain.store? = some s) (now : Instant) (pattern : Pattern) :
    (chain.removeMatched now pattern).Follows (fun n direct => direct ≤ n)
      (s.removeMatching pattern) :=
  removal_follows (f := (removeMatched now pattern ·))
    (Memory.removeWhere · now fun key _ => pattern.accepts key) (fun _ => rfl) (fun _ _ => rfl) h

theorem removeTypes_follows (h : chain.store? = some s) (now : Instant) (types : List String) :
    (chain.removeTypes now types).Follows (fun n direct => direct ≤ n) (s.removeTypes types) :=
  removal_follows (f := (removeTypes now types ·))
    (Memory.removeWhere · now fun _ r => types.contains r.typeName) (fun _ => rfl)
    (fun _ _ => rfl) h

theorem clear_follows (h : chain.store? = some s) :
    chain.clear.Follows (fun _ _ => True) s.clear := by
  induction chain with
  | empty => cases h
  | store t =>
    cases h
    exact ⟨rfl, trivial⟩
  | memory m next ih => exact ⟨(ih h).store, trivial⟩

theorem trim_follows (h : chain.store? = some s) (maxSize : Nat) (factor : Binary64)
    (sizes : FileSizes) :
    (chain.trim maxSize factor sizes).Follows (fun n direct => n = direct)
      (s.trim maxSize factor sizes) := by
  induction chain with
  | empty => cases h
  | store t =>
    cases h
    exact ⟨rfl, rfl⟩
  | memory m next ih => exact ⟨(ih h).store, (ih h).value⟩

/-- One command, given to a chain and to its store alone. -/
theorem run_follows (h : chain.store? = some s) (now : Instant) {command : Command}
    (hkeep : command.evicts = false) :
    ∃ s', (chain.run now command).state.store? = some s' ∧
      ((store s).run now command).state = store s' ∧
      (chain.run now command).value.Covers ((store s).run now command).value := by
  cases command with
  | load key headers =>
    exact ⟨s, (chain.load_store? now key hkeep).trans h,
      congrArg store (s.load_state [key] hkeep), trivial⟩
  | loadAll keys headers =>
    exact ⟨s, (chain.loadAll_store? now keys hkeep).trans h,
      congrArg store (s.load_state keys hkeep), trivial⟩
  | merge records headers merger =>
    have hmerge := merge_follows h now records headers merger
    exact ⟨_, hmerge.store, rfl, hmerge.value⟩
  | remove key cascade =>
    have hremove := removeKeys_follows h now [key] cascade
    refine ⟨_, hremove.store, rfl, fun hdirect => ?_⟩
    have hpositive := of_decide_eq_true hdirect
    exact decide_eq_true (Nat.lt_of_lt_of_le hpositive hremove.value)
  | removeAll keys cascade =>
    have hremove := removeKeys_follows h now keys cascade
    exact ⟨_, hremove.store, rfl, hremove.value⟩
  | removeMatching source =>
    simp only [run, removeMatching]
    cases Pattern.parse source with
    | error error => exact ⟨s, h, rfl, rfl⟩
    | ok pattern =>
      have hremove := removeMatched_follows h now pattern
      exact ⟨_, hremove.store, rfl, hremove.value⟩
  | removeTypes types =>
    have hremove := removeTypes_follows h now types
    exact ⟨_, hremove.store, rfl, hremove.value⟩
  | clear => exact ⟨_, (clear_follows h).store, rfl, trivial⟩
  | dump => exact ⟨s, dump_store? h now, congrArg store s.dump_state, trivial⟩
  | trim maxSize factor sizes =>
    have htrim := trim_follows h maxSize factor sizes
    exact ⟨_, htrim.store, rfl, htrim.value⟩
  | name => exact ⟨s, h, rfl, trivial⟩

/-- The commands of a run with what their trims find, after what the tier has been through
before. -/
def measured (meter : Meter) (past : List (Option Store × Instant × Command)) (chain : Chain) :
    List (Instant × Command) → List (Instant × Command)
  | [] => []
  | (now, command) :: rest =>
    let past := (chain.store?, now, command) :: past
    let found := command.measured (meter past)
    (now, found) :: measured meter past (chain.run now found).state rest

theorem evicts_of_measured {meter : Meter} {commands : List (Instant × Command)}
    (hkeep : ∀ timed ∈ commands, timed.2.evicts = false)
    (past : List (Option Store × Instant × Command)) (chain : Chain) :
    ∀ timed ∈ chain.measured meter past commands, timed.2.evicts = false := by
  induction commands generalizing past chain with
  | nil => exact List.forall_mem_nil _
  | cons timed commands ih =>
    obtain ⟨hfirst, hrest⟩ := List.forall_mem_cons.1 hkeep
    exact List.forall_mem_cons.2 ⟨(Command.evicts_measured _ _).trans hfirst, ih hrest _ _⟩

/-- The store behind a chain goes through the same as alone, so that its file measures the same at
every trim. -/
theorem measured_eq (meter : Meter) {commands : List (Instant × Command)}
    (hkeep : ∀ timed ∈ commands, timed.2.evicts = false)
    (past : List (Option Store × Instant × Command)) (h : chain.store? = some s) :
    chain.measured meter past commands = (store s).measured meter past commands := by
  induction commands generalizing past chain s with
  | nil => rfl
  | cons timed commands ih =>
    obtain ⟨now, command⟩ := timed
    obtain ⟨hfirst, hrest⟩ := List.forall_mem_cons.1 hkeep
    have hpast : chain.store? = (store s).store? := h
    have hfound : (command.measured (meter (((store s).store?, now, command) :: past))).evicts =
        false := (Command.evicts_measured _ _).trans hfirst
    obtain ⟨s', hthrough, hdirect, -⟩ := run_follows h now hfound
    rw [measured, measured, hpast, hdirect, ih hrest _ hthrough]

/-- The two runs of the same commands. -/
theorem trace_covers (h : chain.store? = some s) {commands : List (Instant × Command)}
    (hkeep : ∀ timed ∈ commands, timed.2.evicts = false) :
    List.Forall₂
      (fun through direct =>
        through.state.store? = direct.state.store? ∧ through.value.Covers direct.value)
      (chain.trace commands) ((store s).trace commands) := by
  refine forall₂_trace (R := fun chain direct => ∃ s, chain.store? = some s ∧ direct = store s)
    (N := fun _ => True) (A := fun command => command.evicts = false) ?_ hkeep
    (fun _ _ => trivial) ⟨s, h, rfl⟩
  rintro chain _ now command hcommand - ⟨s, hstore, rfl⟩
  obtain ⟨s', hthrough, hdirect, hcovers⟩ := run_follows hstore now hcommand
  refine ⟨⟨s', hthrough, hdirect⟩, ?_, hcovers⟩
  rw [hthrough, hdirect]
  rfl

/-- **Writes go through.** Along every run without evicting reads the store behind any memory tiers,
whatever these hold, is after every command the store that gets the same commands alone, and each
reply covers the one that it gives there. However the file comes to measure what it does, a trim
finds it the same in both runs. -/
theorem trace_inFront (memories : List Memory) (s : Store) (meter : Meter)
    {commands : List (Instant × Command)} (hkeep : ∀ timed ∈ commands, timed.2.evicts = false) :
    List.Forall₂
      (fun through direct =>
        through.state.store? = direct.state.store? ∧ through.value.Covers direct.value)
      ((inFront memories s).trace ((inFront memories s).measured meter [] commands))
      ((store s).trace ((store s).measured meter [] commands)) := by
  rw [measured_eq meter hkeep [] (store?_inFront memories s)]
  exact trace_covers (store?_inFront memories s) (evicts_of_measured hkeep [] (store s))

/-- Two memory tiers that count records, the front one with room for a single record that it keeps
for a second, and a run in which it drops a record for want of room and another for its age. The
file grows by a page with every call. -/
theorem trace_inFront_small_tiers :
    let memories := [Memory.new ⟨1, some ⟨Duration.second⟩, true⟩ Weigher.one,
      Memory.new ⟨2, none, false⟩ Weigher.one]
    let s : Store := ⟨{ trackDates := true }, ⟨some ⟨[], true⟩⟩⟩
    let record (name : String) (n : Int64) : Record :=
      (Record.new ⟨name⟩ "Node").withField "size" (.int n)
    let meter : Meter := fun past => ⟨4096 * past.length, 4096⟩
    let commands : List (Instant × Command) :=
      [(⟨0⟩, .merge [record "a" 1, record "b" 2] (Headers.none.addInt64 Headers.receivedDate 7)
          Merger.overwrite),
        (⟨5⟩, .load ⟨"a"⟩ Headers.none),
        (⟨2 * Duration.second⟩, .loadAll [⟨"b"⟩, ⟨"a"⟩, ⟨"b"⟩] Headers.none),
        (⟨3 * Duration.second⟩, .trim 16384 ⟨0x3FE0000000000000⟩),
        (⟨4 * Duration.second⟩, .removeMatching "a%")]
    (∀ timed ∈ commands, timed.2.evicts = false) ∧
      List.Forall₂
        (fun through direct =>
          through.state.store? = direct.state.store? ∧ through.value.Covers direct.value)
        ((inFront memories s).trace ((inFront memories s).measured meter [] commands))
        ((store s).trace ((store s).measured meter [] commands)) := by
  intro memories s record meter commands
  have hkeep : ∀ timed ∈ commands, timed.2.evicts = false := by
    simp only [commands, List.forall_mem_cons, List.not_mem_nil, false_implies, implies_true,
      and_true]
    exact ⟨rfl, rfl, rfl, rfl, rfl⟩
  exact ⟨hkeep, trace_inFront memories s meter hkeep⟩

end Chain
end RecordCache
