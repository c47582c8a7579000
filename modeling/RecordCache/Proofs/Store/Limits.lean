import RecordCache.Chain.Build
import RecordCache.Proofs.Chain.Trace
import RecordCache.Proofs.Database.Chunks
import RecordCache.Proofs.Store.Contents
import RecordCache.Proofs.Store.Trim

/-!
# The limit on the parameters of a statement

How many parameters a persistent tier binds to a statement cannot be seen from its replies, its
reports and its rows: these are the same whatever the limit. There are two exceptions. Beyond what a
statement can bind, a statement may be refused, and the call with it. And the pages of a file depend
on the statements that filled it, so that a trim may find two files with the same rows on different
sides of the size to trim at.

* `Store.withLimit` is a tier with another limit;
* `Outcome.LikeOne`: an outcome with some limit beside the one with a limit of one;
* `Store.load_limit`, `merge_limit` and their like: one lemma for each operation;
* `Chain.trace_limit`: a run with any limit, by induction on the commands;
* `Command.Alike`, `Chain.ShownAlike`: calls on two tiers whose files may measure differently, and
  what these show;
* `Chain.trace_limits`: two limits, and `Chain.trace_limits_differ`: the two exceptions.
-/

namespace RecordCache

universe u v w

/-- The call reported that a statement was refused for the number of its parameters. -/
def Outcome.IsOverbound {σ : Type u} {α : Type v} (outcome : Outcome σ α) : Prop :=
  ∃ operation, ⟨operation, .storage Database.overbound⟩ ∈ outcome.reports

/-- The tier with another limit on the parameters of a statement. -/
def Store.withLimit (limit : Nat) (s : Store) : Store :=
  { s with config := { s.config with maxParameters := limit } }

/-- With some limit a call gives the value and the reports that it gives with a limit of one, and
leaves the same tier but for the limit; or the call is refused, which takes a limit beyond what a
statement can bind. -/
inductive Outcome.LikeOne {σ : Type u} {α : Type v} (embed : Store → σ) (limit : Nat) :
    Outcome σ α → Outcome σ α → Prop
  | same (value : α) (s : Store) (reports : List Report) :
    LikeOne embed limit ⟨value, embed (s.withLimit limit), reports⟩
      ⟨value, embed (s.withLimit 1), reports⟩
  | refused {outcome one : Outcome σ α} (hlimit : Database.maxParameters < limit)
    (hrefused : outcome.IsOverbound) : LikeOne embed limit outcome one

namespace Outcome.LikeOne

variable {σ : Type u} {α : Type v} {β : Type w} {embed : Store → σ} {limit : Nat}

theorem mapValue {outcome one : Outcome σ α} (h : LikeOne embed limit outcome one) (f : α → β) :
    LikeOne embed limit (outcome.mapValue f) (one.mapValue f) := by
  cases h with
  | same value s reports => exact .same (f value) s reports
  | refused hlimit hrefused => exact .refused hlimit hrefused

theorem chain {outcome one : Outcome Store α} (h : LikeOne id limit outcome one) :
    LikeOne Chain.store limit (outcome.mapState Chain.store) (one.mapState Chain.store) := by
  cases h with
  | same value s reports => exact .same value s reports
  | refused hlimit hrefused => exact .refused hlimit hrefused

end Outcome.LikeOne

namespace Store

open Database (UnlessRefused)

variable (limit : Nat) (s : Store)

/-- A transaction whose statements may be refused. -/
theorem run_limit {α : Type} (operation : String) (fallback : α)
    {transaction one : Database → Except StorageError (α × Database)}
    (h : UnlessRefused (Database.maxParameters < limit) (transaction s.database)
      (one s.database)) :
    Outcome.LikeOne id limit ((s.withLimit limit).run operation fallback transaction)
      ((s.withLimit 1).run operation fallback one) := by
  have hdatabase (n : Nat) : (s.withLimit n).database = s.database := rfl
  unfold run
  rw [hdatabase, hdatabase]
  generalize transaction s.database = result at h ⊢
  generalize one s.database = oneResult at h ⊢
  cases h with
  | refused _ hlimit => exact .refused hlimit ⟨operation, List.mem_singleton_self _⟩
  | same =>
    cases result with
    | error error => exact .same fallback s _
    | ok result => exact .same result.1 { s with database := result.2 } []

/-- A transaction that does not split a batch. -/
theorem run_same {α : Type} (operation : String) (fallback : α)
    (transaction : Database → Except StorageError (α × Database)) :
    Outcome.LikeOne id limit ((s.withLimit limit).run operation fallback transaction)
      ((s.withLimit 1).run operation fallback transaction) :=
  s.run_limit limit operation fallback (.same (transaction s.database))

theorem loadIn_limit (keys : List Key) (headers : Headers) (db : Database) :
    UnlessRefused (Database.maxParameters < limit)
      (loadIn (s.withLimit limit).config keys headers db)
      (loadIn (s.withLimit 1).config keys headers db) := by
  unfold loadIn
  refine (db.select_limit limit keys).andThen fun records => ?_
  dsimp only
  split
  · refine UnlessRefused.andThen ?_ fun _ => .same _
    exact (db.deleteKeys_limit limit _).map Prod.snd
  · exact .same _

theorem load_limit (keys : List Key) (headers : Headers) :
    Outcome.LikeOne id limit ((s.withLimit limit).load keys headers)
      ((s.withLimit 1).load keys headers) := by
  unfold load
  split
  · exact .same [] s []
  · exact s.run_limit limit _ _ (s.loadIn_limit limit keys headers s.database)

theorem mergeIn_limit (now : Instant) (records : List Record) (headers : Headers)
    (merger : Merger) (db : Database) :
    UnlessRefused (Database.maxParameters < limit)
      (mergeIn (s.withLimit limit).config now records headers merger db)
      (mergeIn (s.withLimit 1).config now records headers merger db) := by
  unfold mergeIn
  dsimp only
  split
  · exact (Database.upsert_limit limit _ _ db).andThen fun _ => .same _
  · refine (db.select_limit limit _).andThen fun stored => ?_
    exact (Database.upsert_limit limit _ _ db).andThen fun _ => .same _

theorem merge_limit (now : Instant) (records : List Record) (headers : Headers)
    (merger : Merger) :
    Outcome.LikeOne id limit ((s.withLimit limit).merge now records headers merger)
      ((s.withLimit 1).merge now records headers merger) := by
  unfold merge
  split
  · exact .same ∅ s []
  · exact s.run_limit limit _ _ (s.mergeIn_limit limit now _ headers merger s.database)

theorem removeKeys_limit (keys : List Key) (cascade : Bool) :
    Outcome.LikeOne id limit ((s.withLimit limit).removeKeys keys cascade)
      ((s.withLimit 1).removeKeys keys cascade) := by
  unfold removeKeys
  refine s.run_limit limit _ _ ?_
  cases cascade with
  | false => exact Database.deleteKeys_limit limit keys s.database
  | true =>
    exact (s.database.reachable_limit limit keys).andThen fun targets =>
      Database.deleteKeys_limit limit targets s.database

theorem removeTypes_limit (types : List String) :
    Outcome.LikeOne id limit ((s.withLimit limit).removeTypes types)
      ((s.withLimit 1).removeTypes types) := by
  unfold removeTypes
  split
  · exact .same 0 s []
  · exact s.run_limit limit _ _ (Database.deleteTypes_limit limit types s.database)

end Store

namespace Chain

variable (limit : Nat) (s : Store)

theorem removeMatched_limit (now : Instant) (pattern : Pattern) :
    Outcome.LikeOne store limit ((store (s.withLimit limit)).removeMatched now pattern)
      ((store (s.withLimit 1)).removeMatched now pattern) :=
  (s.run_same limit _ _ (Database.deleteMatching pattern.glob)).chain

theorem run_limit (now : Instant) (command : Command) :
    Outcome.LikeOne store limit ((store (s.withLimit limit)).run now command)
      ((store (s.withLimit 1)).run now command) := by
  cases command with
  | load key headers => exact (((s.load_limit limit [key] headers).mapValue _).chain).mapValue _
  | loadAll keys headers => exact (s.load_limit limit keys headers).chain.mapValue _
  | merge records headers merger =>
    exact (s.merge_limit limit now records headers merger).chain.mapValue _
  | remove key cascade =>
    exact (s.removeKeys_limit limit [key] cascade).chain.mapValue fun n => Reply.flag (0 < n)
  | removeAll keys cascade => exact (s.removeKeys_limit limit keys cascade).chain.mapValue _
  | removeTypes types => exact (s.removeTypes_limit limit types).chain.mapValue _
  | removeMatching source =>
    simp only [run, removeMatching]
    cases Pattern.parse source with
    | error error => exact .same _ s []
    | ok pattern => exact ((removeMatched_limit limit s now pattern).mapValue _).mapValue _
  | clear => exact (s.run_same limit _ _ _).chain.mapValue fun _ => Reply.done
  | dump => exact ((s.run_same limit _ _ _).chain.mapValue _).mapValue _
  | trim maxSize factor sizes => exact (s.run_same limit _ _ _).chain.mapValue _
  | name => exact .same _ s []

end Chain

/-- What a call shows: its reply, its reports, and the table of the persistent tier afterwards. -/
abbrev Shown := Reply × List Report × Option Database

def Outcome.shown (outcome : Outcome Chain Reply) : Shown :=
  (outcome.value, outcome.reports, outcome.state.store?.map Store.database)

namespace Chain

/-- By induction on the commands: as long as none is refused, the tier after each of them is the one
with a limit of one but for the limit. -/
theorem trace_limit (s : Store) (limit : Nat) (commands : List (Instant × Command))
    (h : limit ≤ Database.maxParameters ∨
      ∀ outcome ∈ (store (s.withLimit limit)).trace commands, ¬outcome.IsOverbound) :
    ((store (s.withLimit limit)).trace commands).map Outcome.shown =
      ((store (s.withLimit 1)).trace commands).map Outcome.shown := by
  induction commands generalizing s with
  | nil => rfl
  | cons timed commands ih =>
    obtain ⟨now, command⟩ := timed
    have hfirst := run_limit limit s now command
    simp only [trace, List.map_cons, List.forall_mem_cons] at h ⊢
    generalize (store (s.withLimit limit)).run now command = outcome at hfirst h ⊢
    generalize (store (s.withLimit 1)).run now command = one at hfirst ⊢
    cases hfirst with
    | same value left reports =>
      rw [ih left (h.imp_right And.right)]
      rfl
    | refused hlimit hrefused =>
      rcases h with hsmall | ⟨hnot, -⟩
      · omega
      · exact absurd hrefused hnot

end Chain

/-- What a trim tells of its file: what that measures before, when it is below the size to trim at,
and else what it measures after. -/
def FileSizes.told (maxSize : Nat) (sizes : FileSizes) : Nat :=
  if sizes.before < maxSize then sizes.before else sizes.after

/-- The calls are the same, but that two trims may find their files to measure differently, as long
as both find it below the size to trim at or neither does. -/
inductive Command.Alike : Command → Command → Prop
  | same (command : Command) : Alike command command
  | trim {maxSize : Nat} {few many : FileSizes} (factor : Binary64)
    (hside : few.before < maxSize ↔ many.before < maxSize) :
    Alike (.trim maxSize factor few) (.trim maxSize factor many)

namespace Store

/-- Whether a trim goes through, and what it leaves, depends on the sizes only by the side on which
they are. -/
theorem trim_told (s : Store) (maxSize : Nat) (factor : Binary64) (below : Bool) :
    ∃ outcome : Outcome Store Bool, ∀ sizes : FileSizes,
      (sizes.before < maxSize ↔ below = true) → s.trim maxSize factor sizes =
        outcome.mapValue fun through => if through then some (sizes.told maxSize) else none := by
  cases below with
  | true =>
    refine ⟨⟨true, s, []⟩, fun sizes hside => ?_⟩
    have hbelow := hside.2 rfl
    rw [trim_below hbelow, FileSizes.told, if_pos hbelow]
    rfl
  | false =>
    refine ⟨s.run "trim" false fun db => (true, ·) <$> db.trimmed factor, fun sizes hside => ?_⟩
    have hreached : ¬sizes.before < maxSize := fun hbelow => Bool.false_ne_true (hside.1 hbelow)
    rw [FileSizes.told, if_neg hreached, trim, run, run, trimIn_reached hreached]
    cases s.database.trimmed factor with
    | error error => rfl
    | ok db => rfl

end Store

namespace Chain

/-- The calls of a run, each with what it shows. -/
def shows (chain : Chain) (commands : List (Instant × Command)) : List (Command × Shown) :=
  (commands.map Prod.snd).zip ((chain.trace commands).map Outcome.shown)

/-- Two calls show the same, but that each of two trims tells what its own file measures. -/
inductive ShownAlike : Command × Shown → Command × Shown → Prop
  | same (call : Command × Shown) : ShownAlike call call
  | trim (maxSize : Nat) (factor : Binary64) (few many : FileSizes) (through : Bool)
    (rest : List Report × Option Database) :
    ShownAlike
      (.trim maxSize factor few, .size (if through then some (few.told maxSize) else none), rest)
      (.trim maxSize factor many, .size (if through then some (many.told maxSize) else none), rest)

/-- Alike calls on one tier. -/
theorem run_alike (s : Store) (now : Instant) {a b : Command} (h : a.Alike b) :
    ((store s).run now a).state = ((store s).run now b).state ∧
      ShownAlike (a, ((store s).run now a).shown) (b, ((store s).run now b).shown) := by
  cases h with
  | same => exact ⟨rfl, .same _⟩
  | @trim maxSize few many factor hside =>
    obtain ⟨outcome, htold⟩ := s.trim_told maxSize factor (decide (few.before < maxSize))
    simp only [run, Chain.trim, htold few decide_eq_true_iff.symm,
      htold many (hside.symm.trans decide_eq_true_iff.symm)]
    exact ⟨rfl, .trim maxSize factor few many _ _⟩

/-- By induction on the calls: what is left after two alike calls is the same tier. -/
theorem shows_alike (s : Store) {few many : List (Instant × Command)}
    (h : List.Forall₂ (fun a b => a.1 = b.1 ∧ a.2.Alike b.2) few many) :
    List.Forall₂ ShownAlike ((store s).shows few) ((store s).shows many) := by
  induction h generalizing s with
  | nil => exact .nil
  | @cons first second few many hfirst _ ih =>
    obtain ⟨now, a⟩ := first
    obtain ⟨_, b⟩ := second
    obtain ⟨rfl, halike⟩ := hfirst
    obtain ⟨hstate, hshown⟩ := run_alike s now halike
    refine .cons hshown ?_
    show List.Forall₂ ShownAlike (((store s).run now a).state.shows few)
      (((store s).run now b).state.shows many)
    rw [hstate, s.run_store]
    exact ih (s.call now b)

/-- **Two limits.** Two persistent tiers that differ only in their limits give the same replies,
make the same reports and have the same rows after every call of a run, but that a trim tells what
its own file measures. This takes that the two files are found on the same side of the size to trim
at, and that neither limit is beyond what a statement can bind, or no call is refused for it. -/
theorem trace_limits (s : Store) (p q : Nat) {few many : List (Instant × Command)}
    (halike : List.Forall₂ (fun a b => a.1 = b.1 ∧ a.2.Alike b.2) few many)
    (hp : p ≤ Database.maxParameters ∨
      ∀ outcome ∈ (store (s.withLimit p)).trace few, ¬outcome.IsOverbound)
    (hq : q ≤ Database.maxParameters ∨
      ∀ outcome ∈ (store (s.withLimit q)).trace many, ¬outcome.IsOverbound) :
    List.Forall₂ ShownAlike ((store (s.withLimit p)).shows few)
      ((store (s.withLimit q)).shows many) := by
  rw [shows, shows, trace_limit s p few hp, trace_limit s q many hq]
  exact shows_alike (s.withLimit 1) halike

/-- A limit of four is less than the columns of a row. The batches repeat a key across the borders
of their chunks, and the two files never measure the same before a trim. -/
theorem trace_limits_of_four :
    let s := Store.new { trackDates := true }
    let record (name : String) (n : Int64) (next : String) : Record :=
      ((Record.new ⟨name⟩ "T").withField "x" (.int n)).withField "next" (.reference ⟨next⟩)
    let half : Binary64 := ⟨0x3FE0000000000000⟩
    let commands (before : Nat) : List (Instant × Command) :=
      [(⟨0⟩, .merge [record "a" 1 "b", record "b" 2 "c", record "a" 3 "c", record "c" 4 "a",
          record "d" 5 "e"] Headers.none Merger.overwrite),
        (⟨1⟩, .loadAll [⟨"d"⟩, ⟨"a"⟩, ⟨"x"⟩, ⟨"b"⟩, ⟨"a"⟩, ⟨"c"⟩] Headers.none),
        (⟨2⟩, .removeAll [⟨"a"⟩] true), (⟨3⟩, .trim 40960 half ⟨before, before⟩),
        (⟨4⟩, .removeTypes ["T", "T", "U", "T", "T", "T"]),
        (⟨5⟩, .trim 32768 half ⟨before, 20480⟩)]
    let few := store (s.withLimit 4)
    let many := store (s.withLimit (Database.maxParameters + 1))
    let told (chain : Chain) (commands : List (Instant × Command)) : List Nat :=
      (chain.trace commands).map fun outcome => match outcome.value with
        | .records rs => rs.length
        | .count n => n
        | .size n => n.getD 0
        | _ => 0
    (List.Forall₂ (fun a b => a.1 = b.1 ∧ a.2.Alike b.2) (commands 32768) (commands 36864) ∧
      (4 ≤ Database.maxParameters ∨
        ∀ outcome ∈ few.trace (commands 32768), ¬outcome.IsOverbound) ∧
      (Database.maxParameters + 1 ≤ Database.maxParameters ∨
        ∀ outcome ∈ many.trace (commands 36864), ¬outcome.IsOverbound)) ∧
      List.Forall₂ ShownAlike (few.shows (commands 32768)) (many.shows (commands 36864)) ∧
      told few (commands 32768) = [0, 4, 2, 32768, 2, 20480] ∧
      told many (commands 36864) = [0, 4, 2, 36864, 2, 20480] := by
  intro s record half commands few many told
  have halike : List.Forall₂ (fun a b => a.1 = b.1 ∧ a.2.Alike b.2)
      (commands 32768) (commands 36864) := by
    refine .cons ⟨rfl, .same _⟩ (.cons ⟨rfl, .same _⟩ (.cons ⟨rfl, .same _⟩ ?_))
    refine .cons ⟨rfl, .trim half (by decide)⟩ (.cons ⟨rfl, .same _⟩ ?_)
    exact .cons ⟨rfl, .trim half (by decide)⟩ .nil
  have hnone : ∀ outcome ∈ many.trace (commands 36864), outcome.reports = [] := by decide +kernel
  have hmany : ∀ outcome ∈ many.trace (commands 36864), ¬outcome.IsOverbound := by
    rintro outcome houtcome ⟨operation, hreport⟩
    rw [hnone outcome houtcome] at hreport
    cases hreport
  have hfew : 4 ≤ Database.maxParameters := by decide
  exact ⟨⟨halike, .inl hfew, .inr hmany⟩, trace_limits s 4 _ halike (.inl hfew) (.inr hmany),
    by decide +kernel, by decide +kernel⟩

/-- Within what a statement can bind, a removal by type counts the rows of the types. -/
theorem removeTypes_value {s : Store} {table : Table} (hdatabase : s.database = ⟨some table⟩)
    (hlimit : s.config.maxParameters ≤ Database.maxParameters) (types : List String) :
    (s.removeTypes types).value = (table.rows.map Row.typeName).countP types.contains := by
  rw [List.countP_map]
  unfold Store.removeTypes
  split
  · rename_i hempty
    rw [List.isEmpty_iff.1 hempty]
    exact (List.countP_eq_zero.2 fun _ _ => Bool.false_ne_true).symm
  · rw [Store.run, hdatabase, Database.deleteTypes_eq table (.inl hlimit)]
    rfl

/-- Of two tiers with a row of one of the types only the one whose statement is refused counts
none. -/
theorem removeTypes_ne {few many : Store} {table : Table} (hdatabase : few.database = ⟨some table⟩)
    (hfew : few.config.maxParameters ≤ Database.maxParameters)
    (hmany : Database.maxParameters < many.config.maxParameters) {types : List String}
    (hlong : Database.maxParameters < types.length) {name : String} (htype : name ∈ types)
    (hrow : name ∈ table.rows.map Row.typeName) :
    (few.removeTypes types).value ≠ (many.removeTypes types).value := by
  rw [many.removeTypes_unbound hmany hlong, removeTypes_value hdatabase hfew]
  refine Nat.ne_of_gt (List.countP_pos_iff.2 ⟨name, hrow, ?_⟩)
  rwa [List.contains_iff_mem]

/-- Where two limits show. With a limit of one more than a statement can bind, the removal of so
many types is refused, and with a limit of one it removes the record. Within that, one removal for
each of two types leaves the pages of a file otherwise than a removal of both: SQLite 3.46.0 has
room for three more records in the eight pages of the first file, and gives the second a ninth. A
trim that does nothing tells the one size or the other. Where these are on two sides of the size to
trim at, it empties one of the two tables, and the file of that one then has five pages. -/
theorem trace_limits_differ :
    (let s := Store.new {}
      let record : Record := (Record.new ⟨"a"⟩ "T").withField "x" (.int 1)
      let commands (types : List String) : List (Instant × Command) :=
        [(⟨0⟩, .merge [record] Headers.none Merger.overwrite), (⟨1⟩, .removeTypes types)]
      let run (limit : Nat) := (store (s.withLimit limit)).trace
        (commands (List.replicate (Database.maxParameters + 1) "T"))
      (run 1).map Outcome.shown ≠ (run (Database.maxParameters + 1)).map Outcome.shown) ∧
    (let record (name typeName : String) : Record :=
        (Record.new ⟨name⟩ typeName).withField "x"
          (.string (String.ofList (List.replicate 1500 'x')))
      let commands : List (Instant × Command) :=
        [(⟨0⟩, .merge [record "a" "U", record "b" "V", record "c" "V", record "d" "V",
            record "e" "T"] Headers.none Merger.overwrite),
          (⟨1⟩, .removeTypes ["U", "T"]),
          (⟨2⟩, .merge [record "f" "V", record "g" "V", record "h" "V"] Headers.none
            Merger.overwrite)]
      let few := (store (Store.new { maxParameters := 1 })).after commands
      let many := (store (Store.new { maxParameters := 999 })).after commands
      let one : Binary64 := ⟨0x3FF0000000000000⟩
      let keys (outcome : Outcome Chain (Option Nat)) : Option (List Key) :=
        outcome.state.store?.map fun s => s.database.rowKeys
      (few.trim 40960 one ⟨32768, 32768⟩).value = some 32768 ∧
      (many.trim 40960 one ⟨36864, 36864⟩).value = some 36864 ∧
      keys (few.trim 36864 one ⟨32768, 32768⟩) =
        some [⟨"b"⟩, ⟨"c"⟩, ⟨"d"⟩, ⟨"f"⟩, ⟨"g"⟩, ⟨"h"⟩] ∧
      keys (many.trim 36864 one ⟨36864, 20480⟩) = some []) := by
  refine ⟨?_, ?_⟩
  · intro s record commands run
    let merged (limit : Nat) : Store :=
      ((s.withLimit limit).merge ⟨0⟩ [record] Headers.none Merger.overwrite).state
    let few := merged 1
    let many := merged (Database.maxParameters + 1)
    have hlimit : few.config.maxParameters ≤ Database.maxParameters ∧
        Database.maxParameters < many.config.maxParameters := by decide +kernel
    have hrows :
        few.database.table.map (fun table => table.rows.map Row.typeName) = some ["T"] := by
      decide +kernel
    obtain ⟨table, htable, hnames⟩ := Option.map_eq_some_iff.1 hrows
    have hrow : "T" ∈ table.rows.map Row.typeName := hnames ▸ List.mem_singleton_self _
    -- for any types, as the list of so many is not to be computed
    have hdiffer (types : List String) (hlong : Database.maxParameters < types.length)
        (htype : "T" ∈ types) :
        ((store (s.withLimit 1)).trace (commands types)).map Outcome.shown ≠
          ((store (s.withLimit (Database.maxParameters + 1))).trace (commands types)).map
            Outcome.shown := by
      intro hsame
      have hcounts : Reply.count (few.removeTypes types).value =
          Reply.count (many.removeTypes types).value :=
        congrArg Prod.fst (List.cons.inj (List.cons.inj hsame).2).1
      exact removeTypes_ne (congrArg Database.mk htable) hlimit.1 hlimit.2 hlong htype hrow
        (Reply.count.inj hcounts)
    refine hdiffer _ ?_ (List.mem_replicate.2 ⟨Nat.succ_ne_zero _, rfl⟩)
    rw [List.length_replicate]
    exact Nat.lt_succ_self _
  · intro record commands few many one keys
    refine ⟨by decide +kernel, by decide +kernel, by decide +kernel, ?_⟩
    obtain ⟨table, hdatabase, -⟩ := Store.recorded_follows { maxParameters := 999 } commands
    have hmany : many = store (Store.recorded { maxParameters := 999 } commands).1 :=
      Store.after_store _ commands
    have hcount : table.count = 6 := by
      have hkeys :
          (Store.recorded { maxParameters := 999 } commands).1.database.rowKeys.length = 6 := by
        decide +kernel
      rw [hdatabase] at hkeys
      simpa [Database.rowKeys, Table.keys, Table.count] using hkeys
    have hall : table.count ≤ Store.doomed table.count one := by
      rw [hcount]
      decide +kernel
    have hempty := Store.trim_all hdatabase ⟨36864, 20480⟩ (Nat.le_refl 36864) hall
    rw [hmany]
    show some (Database.rowKeys _) = _
    rw [hempty]
    rfl

end Chain
end RecordCache
