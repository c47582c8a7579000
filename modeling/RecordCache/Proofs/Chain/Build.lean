import Mathlib.Logic.Basic
import RecordCache.Chain.Build

/-!
# Building chains

A description is read from its first tier to find what is wrong with it, and a chain is put together
from its last. That no tier is left out on the way back rests on what the way there has refused: a
persistent tier with others behind it.

* `TierConfig.Offends`, `TierConfig.Offence`: the tiers that a chain may not have, and what is wrong
  with them;
* `ChainConfig.Refused`: what is wrong with a description, which is what is wrong with its first
  offending tier;
* `ChainConfig.validateTiers_eq_error_iff`: the way there, by induction on the tiers;
* `Chain.tiers` are the tiers met on the way from the head, and `Chain.assemble_tiers` is the way
  back, by induction on the tiers;
* `Chain.ofConfig_outcome`: both together.
-/

namespace RecordCache

namespace TierConfig

/-- A chain may not have this tier: it has no room, or its records expire at once; it can bind
nothing, or it is persistent and not the last. -/
def Offends (last : Prop) : TierConfig → Prop
  | memory config => config.maxWeight = 0 ∨ config.expireAfter = some ⟨0⟩
  | store config => config.maxParameters = 0 ∨ ¬last

/-- What is wrong with a tier that has so many in front of it. The budget counts before the age, and
the number of parameters before the place. -/
inductive Offence (index : Nat) (last : Prop) : TierConfig → ConfigError → Prop
  | budget {config : MemoryConfig} (hzero : config.maxWeight = 0) :
    Offence index last (memory config)
      (.invalidValue "max_size_bytes" "0" "memory budget must be positive")
  | age {config : MemoryConfig} (hbudget : config.maxWeight ≠ 0)
    (hzero : config.expireAfter = some ⟨0⟩) :
    Offence index last (memory config)
      (.invalidValue "expire_after" "0s" "use None to disable age-based expiry")
  | parameters {config : StoreConfig} (hzero : config.maxParameters = 0) :
    Offence index last (store config)
      (.invalidValue "max_parameters" "0" "at least one bound parameter is required")
  | place {config : StoreConfig} (hparameters : config.maxParameters ≠ 0) (hplace : ¬last) :
    Offence index last (store config)
      (.invalidValue ("tiers[" ++ String.ofList (Text.decimal index) ++ "]") "sql"
        "the persistent tier must be last in the chain")

variable {last : Prop}

theorem offends_iff_offence (index : Nat) (tier : TierConfig) :
    tier.Offends last ↔ ∃ e, tier.Offence index last e := by
  constructor
  · cases tier with
    | memory config =>
      intro h
      by_cases hbudget : config.maxWeight = 0
      · exact ⟨_, .budget hbudget⟩
      · exact ⟨_, .age hbudget (h.resolve_left hbudget)⟩
    | store config =>
      intro h
      by_cases hparameters : config.maxParameters = 0
      · exact ⟨_, .parameters hparameters⟩
      · exact ⟨_, .place hparameters (h.resolve_left hparameters)⟩
  · rintro ⟨e, hzero | ⟨-, hzero⟩ | hzero | ⟨-, hplace⟩⟩
    · exact .inl hzero
    · exact .inr hzero
    · exact .inl hzero
    · exact .inr hplace

end TierConfig

open TierConfig

theorem MemoryConfig.validate_eq_error_iff (config : MemoryConfig) (index : Nat) (last : Prop)
    (e : ConfigError) : config.validate = .error e ↔ (memory config).Offence index last e := by
  rw [validate]
  constructor
  · intro h
    split at h
    · rename_i hbudget
      cases h
      exact .budget hbudget
    · rename_i hbudget
      split at h
      · rename_i hage
        cases h
        exact .age hbudget hage
      · cases h
  · rintro (hbudget | ⟨hbudget, hage⟩)
    · rw [if_pos hbudget]
    · rw [if_neg hbudget, if_pos hage]

theorem MemoryConfig.validate_eq_ok {config : MemoryConfig} {last : Prop}
    (h : ¬(memory config).Offends last) : config.validate = .ok () := by
  rw [validate, if_neg fun hbudget => h (.inl hbudget), if_neg fun hage => h (.inr hage)]

theorem StoreConfig.validate_eq_ok {config : StoreConfig} (h : config.maxParameters ≠ 0) :
    config.validate = .ok () :=
  if_neg h

namespace ChainConfig

/-- The first tier that offends, if so many are in front of the list. A tier in front of another is
not the last. -/
def FirstOffence (index : Nat) (tiers : List TierConfig) (e : ConfigError) : Prop :=
  ∃ before tier behind, tiers = before ++ tier :: behind ∧
    (∀ earlier ∈ before, ¬earlier.Offends False) ∧
    tier.Offence (index + before.length) (behind = []) e

/-- What is wrong with a description. -/
inductive Refused (config : ChainConfig) : ConfigError → Prop
  | empty (hempty : config.tiers = []) : Refused config (.missingRequired "tiers")
  | tier {e : ConfigError} (hfirst : FirstOffence 0 config.tiers e) : Refused config e

theorem not_firstOffence_nil (index : Nat) (e : ConfigError) : ¬FirstOffence index [] e := by
  rintro ⟨before, tier, behind, hsplit, -⟩
  exact List.cons_ne_nil _ _ (List.append_eq_nil_iff.1 hsplit.symm).2

theorem firstOffence_cons (index : Nat) (tier : TierConfig) (rest : List TierConfig)
    (e : ConfigError) : FirstOffence index (tier :: rest) e ↔
      tier.Offence index (rest = []) e ∨
        ¬tier.Offends (rest = []) ∧ FirstOffence (index + 1) rest e := by
  have hcount (n : Nat) : index + (n + 1) = index + 1 + n := by omega
  have hfollowed (before : List TierConfig) (tier : TierConfig) (behind : List TierConfig) :
      (before ++ tier :: behind = []) = False :=
    eq_false (List.append_ne_nil_of_right_ne_nil before (List.cons_ne_nil tier behind))
  constructor
  · rintro ⟨before, first, behind, hsplit, hearlier, hfirst⟩
    cases before with
    | nil =>
      obtain ⟨rfl, rfl⟩ := List.cons.inj hsplit
      exact .inl hfirst
    | cons earlier before =>
      rw [List.cons_append] at hsplit
      obtain ⟨rfl, rfl⟩ := List.cons.inj hsplit
      rw [List.length_cons, hcount] at hfirst
      obtain ⟨hhead, htail⟩ := List.forall_mem_cons.1 hearlier
      rw [hfollowed]
      exact .inr ⟨hhead, before, first, behind, rfl, htail, hfirst⟩
  · rintro (hfirst | ⟨hhead, before, first, behind, rfl, htail, hfirst⟩)
    · exact ⟨[], tier, rest, rfl, List.forall_mem_nil _, hfirst⟩
    · rw [hfollowed] at hhead
      refine ⟨tier :: before, first, behind, rfl, List.forall_mem_cons.2 ⟨hhead, htail⟩, ?_⟩
      rwa [List.length_cons, hcount]

theorem validateTiers_memory (index : Nat) (config : MemoryConfig) (rest : List TierConfig)
    (e : ConfigError) : validateTiers index (memory config :: rest) = .error e ↔
      (memory config).Offence index (rest = []) e ∨
        ¬(memory config).Offends (rest = []) ∧ validateTiers (index + 1) rest = .error e := by
  have hcheck := config.validate_eq_error_iff index (rest = [])
  rw [offends_iff_offence index]
  simp only [← hcheck]
  rw [validateTiers]
  cases config.validate with
  | error e' => exact (or_iff_left fun h => h.1 ⟨e', rfl⟩).symm
  | ok _ => exact ((or_iff_right nofun).trans (and_iff_right nofun)).symm

/-- Whatever is behind a persistent tier is not looked at. -/
theorem validateTiers_store (index : Nat) (config : StoreConfig) (rest : List TierConfig)
    (e : ConfigError) : validateTiers index (store config :: rest) = .error e ↔
      (store config).Offence index (rest = []) e := by
  rw [validateTiers]
  constructor
  · intro h
    by_cases hparameters : config.maxParameters = 0
    · rw [StoreConfig.validate, if_pos hparameters] at h
      cases h
      exact .parameters hparameters
    · rw [StoreConfig.validate_eq_ok hparameters] at h
      cases rest with
      | nil => cases h
      | cons next rest =>
        cases h
        exact .place hparameters (List.cons_ne_nil _ _)
  · rintro (_ | _ | hparameters | ⟨hparameters, hplace⟩)
    · rw [StoreConfig.validate, if_pos hparameters]
      rfl
    · rw [StoreConfig.validate_eq_ok hparameters]
      cases rest with
      | nil => exact absurd rfl hplace
      | cons next rest => rfl

/-- The way there: the check gives what is wrong with the first tier that offends. -/
theorem validateTiers_eq_error_iff (index : Nat) (tiers : List TierConfig) (e : ConfigError) :
    validateTiers index tiers = .error e ↔ FirstOffence index tiers e := by
  induction tiers generalizing index with
  | nil => exact iff_of_false nofun (not_firstOffence_nil index e)
  | cons tier rest ih =>
    rw [firstOffence_cons, ← ih]
    cases tier with
    | memory config => exact validateTiers_memory index config rest e
    | store config =>
      rw [validateTiers_store]
      refine (or_iff_left fun ⟨hhead, hrest⟩ => hhead (.inr fun hlast => ?_)).symm
      rw [hlast] at hrest
      cases hrest

theorem validate_eq_error_iff (config : ChainConfig) (e : ConfigError) :
    config.validate = .error e ↔ config.Refused e := by
  rw [validate]
  constructor
  · intro h
    split at h
    · rename_i hempty
      cases h
      exact .empty (List.isEmpty_iff.1 hempty)
    · exact .tier ((validateTiers_eq_error_iff 0 config.tiers e).1 h)
  · rintro (hempty | hfirst)
    · rw [hempty]
      rfl
    · rw [if_neg, validateTiers_eq_error_iff]
      · exact hfirst
      · intro hempty
        rw [List.isEmpty_iff.1 hempty] at hfirst
        exact not_firstOffence_nil 0 e hfirst

/-- A chain may have all of these tiers. -/
def Sensible (tiers : List TierConfig) : Prop :=
  ∀ before tier behind, tiers = before ++ tier :: behind → ¬tier.Offends (behind = [])

theorem sensible_nil : Sensible [] := fun _ _ _ hsplit =>
  absurd (List.append_eq_nil_iff.1 hsplit.symm).2 (List.cons_ne_nil _ _)

theorem sensible_cons {tier : TierConfig} {rest : List TierConfig} :
    Sensible (tier :: rest) ↔ ¬tier.Offends (rest = []) ∧ Sensible rest := by
  constructor
  · intro h
    refine ⟨h [] tier rest rfl, fun before other behind hsplit => ?_⟩
    exact h (tier :: before) other behind (congrArg (tier :: ·) hsplit)
  · rintro ⟨hhead, htail⟩ before other behind hsplit
    cases before with
    | nil =>
      obtain ⟨rfl, rfl⟩ := List.cons.inj hsplit
      exact hhead
    | cons first before =>
      obtain ⟨rfl, hrest⟩ := List.cons.inj hsplit
      exact htail before other behind hrest

/-- By induction on the tiers: one of them offends, or there is no first that does. -/
theorem sensible_iff (index : Nat) (tiers : List TierConfig) :
    Sensible tiers ↔ ∀ e, ¬FirstOffence index tiers e := by
  induction tiers generalizing index with
  | nil => exact iff_of_true sensible_nil (not_firstOffence_nil index)
  | cons tier rest ih =>
    simp only [sensible_cons, ih (index + 1), firstOffence_cons, not_or, forall_and, not_and,
      offends_iff_offence index, not_exists]
    exact and_congr_right fun hhead => forall_congr' fun e => (imp_iff_right hhead).symm

/-- What is refused is a description without tiers, or with one that offends. -/
theorem refused_iff (config : ChainConfig) :
    (∃ e, config.Refused e) ↔ config.tiers = [] ∨ ∃ before tier behind,
      config.tiers = before ++ tier :: behind ∧ tier.Offends (behind = []) := by
  have hsensible := not_congr (sensible_iff 0 config.tiers)
  simp only [Sensible, not_forall, not_not, exists_prop] at hsensible
  rw [hsensible]
  constructor
  · rintro ⟨e, hempty | hfirst⟩
    · exact .inl hempty
    · exact .inr ⟨e, hfirst⟩
  · rintro (hempty | ⟨e, hfirst⟩)
    · exact ⟨_, .empty hempty⟩
    · exact ⟨e, .tier hfirst⟩

end ChainConfig

/-- One tier of a chain. -/
inductive Tier
  | memory (memory : Memory)
  | store (store : Store)

namespace Tier

/-- The settings of a tier. -/
def config : Tier → TierConfig
  | memory m => .memory m.config
  | store s => .store s.config

/-- The tier is as it is made: a memory tier is empty and goes by its settings, and a persistent one
has a table with the columns that its settings ask for. -/
def IsNew : Tier → Prop
  | memory m => m = Memory.new m.config Weigher.bytes
  | store s => s.database.prepare s.config.trackDates = s.database

end Tier

theorem Database.prepare_prepare (trackDates : Bool) (db : Database) :
    (db.prepare trackDates).prepare trackDates = db.prepare trackDates := by
  obtain ⟨_ | table⟩ := db
  · simp [prepare]
  · simp [prepare]

namespace Chain

/-- The tiers met on the way from the head. -/
def tiers : Chain → List Tier
  | empty => []
  | store s => [.store s]
  | memory m next => .memory m :: next.tiers

/-- The tables of the persistent tiers that have a path can be opened. -/
def CanOpen (disk : Disk) (tiers : List TierConfig) : Prop :=
  ∀ config path, .store config ∈ tiers → config.path = some path → (disk.open? path).isSome

/-- A chain has the tiers of a description, in order, each with its own settings and new. -/
def IsBuiltFrom (tiers : List TierConfig) (chain : Chain) : Prop :=
  chain.tiers.map Tier.config = tiers ∧ ∀ tier ∈ chain.tiers, tier.IsNew

/-- What putting tiers together comes to. -/
inductive Assembled (disk : Disk) (tiers : List TierConfig) :
    Except CacheError (Chain × Disk) → Prop
  | built {chain : Chain} {disk' : Disk} (hopen : CanOpen disk tiers)
    (hbuilt : chain.IsBuiltFrom tiers) : Assembled disk tiers (.ok (chain, disk'))
  | unopened (path reason : String) (hclosed : ¬CanOpen disk tiers) :
    Assembled disk tiers (.error (.storage (.openFailed path reason)))

theorem canOpen_memory {disk : Disk} {config : MemoryConfig} {rest : List TierConfig} :
    CanOpen disk (.memory config :: rest) ↔ CanOpen disk rest := by
  refine forall₂_congr fun config' path => ?_
  rw [List.mem_cons, or_iff_right nofun]

theorem canOpen_store {disk : Disk} {config : StoreConfig} :
    CanOpen disk [.store config] ↔
      ∀ path, config.path = some path → (disk.open? path).isSome := by
  constructor
  · intro h path hpath
    exact h config path List.mem_cons_self hpath
  · intro h config' path hconfig hpath
    cases List.mem_singleton.1 hconfig
    exact h path hpath

theorem assembled_store (disk : Disk) {config : StoreConfig}
    (hparameters : config.maxParameters ≠ 0) (weigh : Weigher) :
    Assembled disk [.store config]
      (assemble disk [{ config := .store config, weigh := weigh }]) := by
  have hnew (db : Database) : IsBuiltFrom [.store config]
      (store ⟨config, db.prepare config.trackDates⟩) :=
    ⟨rfl, List.forall_mem_singleton.2 (db.prepare_prepare config.trackDates)⟩
  simp only [assemble, Store.open, StoreConfig.validate_eq_ok hparameters, bind, Except.bind, pure,
    Except.pure]
  cases hpath : config.path with
  | none => exact .built (canOpen_store.2 (by rw [hpath]; nofun)) (hnew _)
  | some path =>
    cases hopen : disk.open? path with
    | none =>
      simp only [hopen, throw, throwThe, MonadExceptOf.throw]
      refine .unopened path _ fun h => ?_
      have hsome := canOpen_store.1 h path hpath
      rw [hopen] at hsome
      cases hsome
    | some opened =>
      simp only [hopen]
      refine .built (canOpen_store.2 fun path' hpath' => ?_) (hnew _)
      cases hpath.symm.trans hpath'
      rw [hopen]
      rfl

/-- The way back, by induction on the tiers: what is behind a memory tier becomes its successor, and
behind a persistent tier there is nothing that could be left out. -/
theorem assembled {tiers : List TierConfig} (h : ChainConfig.Sensible tiers) (disk : Disk) :
    Assembled disk tiers (assemble disk (tiers.map fun tier => { config := tier })) := by
  induction tiers with
  | nil => exact .built nofun ⟨rfl, nofun⟩
  | cons tier rest ih =>
    obtain ⟨hhead, hrest⟩ := ChainConfig.sensible_cons.1 h
    cases tier with
    | memory config =>
      simp only [List.map_cons, assemble, Memory.new?, MemoryConfig.validate_eq_ok hhead]
      have hbehind := ih hrest
      generalize assemble disk _ = behind at *
      cases hbehind with
      | built hopen hbuilt =>
        refine .built (canOpen_memory.2 hopen) ⟨?_, ?_⟩
        · exact congrArg (TierConfig.memory config :: ·) hbuilt.1
        · exact List.forall_mem_cons.2 ⟨rfl, hbuilt.2⟩
      | unopened path reason hclosed =>
        exact .unopened path reason fun h => hclosed (canOpen_memory.1 h)
    | store config =>
      have hlast : rest = [] := by_contra fun hbehind => hhead (.inr hbehind)
      rw [hlast]
      exact assembled_store disk (fun hzero => hhead (.inl hzero)) _

/-- What building a chain from a description comes to. The description is refused exactly when it
has no tier, or one that offends, and for what is wrong with the first of these. If it is not, the
chain has all the tiers of the description, or the table of the persistent tier cannot be opened. -/
structure Builds (disk : Disk) (config : ChainConfig) (result : Except CacheError (Chain × Disk)) :
    Prop where
  refused : ∀ e, result = .error (.config e) ↔ config.Refused e
  offends : (∃ e, result = .error (.config e)) ↔ config.tiers = [] ∨ ∃ before tier behind,
    config.tiers = before ++ tier :: behind ∧ tier.Offends (behind = [])
  built : (∀ e, ¬config.Refused e) → CanOpen disk config.tiers →
    ∃ chain disk', result = .ok (chain, disk') ∧ chain.IsBuiltFrom config.tiers
  unopened : (∀ e, ¬config.Refused e) → ¬CanOpen disk config.tiers →
    ∃ path reason, result = .error (.storage (.openFailed path reason))

/-- **Building a chain.** The two readings of the description meet: one that the way there has let
through is put together on the way back without leaving a tier out. -/
theorem builds_ofConfig (disk : Disk) (config : ChainConfig) :
    Builds disk config (ofConfig disk config) := by
  have hcheck := config.validate_eq_error_iff
  have hsensible (h : ∀ e, ¬config.Refused e) : ChainConfig.Sensible config.tiers :=
    (ChainConfig.sensible_iff 0 config.tiers).2 fun e hfirst => h e (.tier hfirst)
  rw [ofConfig]
  cases hvalidate : config.validate with
  | error error =>
    have hrefused := (hcheck error).1 hvalidate
    refine ⟨fun e => ?_, ?_, fun h => (h error hrefused).elim, fun h => (h error hrefused).elim⟩
    · rw [← hcheck, hvalidate]
      simp
    · rw [← config.refused_iff]
      exact iff_of_true ⟨error, rfl⟩ ⟨error, hrefused⟩
  | ok _ =>
    have hnone (e : ConfigError) : ¬config.Refused e := by
      rw [← hcheck, hvalidate]
      nofun
    have hassembled := assembled (hsensible hnone) disk
    have hfine (e : ConfigError) : assemble disk
        (config.tiers.map fun tier => { config := tier }) ≠ .error (.config e) := by
      intro h
      rw [h] at hassembled
      cases hassembled
    generalize assemble disk _ = result at *
    refine ⟨fun e => iff_of_false (hfine e) (hnone e), ?_, fun _ hopen => ?_, fun _ hclosed => ?_⟩
    · rw [← config.refused_iff]
      exact iff_of_false (fun ⟨e, h⟩ => hfine e h) fun ⟨e, h⟩ => hnone e h
    · cases hassembled with
      | built _ hbuilt => exact ⟨_, _, rfl, hbuilt⟩
      | unopened path reason hclosed => exact absurd hopen hclosed
    · cases hassembled with
      | built hopen _ => exact absurd hopen hclosed
      | unopened path reason _ => exact ⟨path, reason, rfl⟩

/-- Two memory tiers in front of a persistent one are all met. With the persistent tier between them
the description is refused for its place, although the last tier has no room. -/
theorem builds_ofConfig_three_tiers :
    let sensible : ChainConfig := ⟨[.memory {}, .memory { maxWeight := 512 }, .store {}]⟩
    let misplaced : ChainConfig := ⟨[.memory {}, .store {}, .memory { maxWeight := 0 }]⟩
    ((∀ e, ¬sensible.Refused e) ∧ CanOpen ⟨∅⟩ sensible.tiers) ∧
      (∃ chain disk', ofConfig ⟨∅⟩ sensible = .ok (chain, disk') ∧
        chain.IsBuiltFrom sensible.tiers) ∧
      ofConfig ⟨∅⟩ misplaced = .error (.config (.invalidValue "tiers[1]" "sql"
        "the persistent tier must be last in the chain")) := by
  intro sensible misplaced
  have hsensible := builds_ofConfig ⟨∅⟩ sensible
  have hnone (e : ConfigError) : ¬sensible.Refused e := (hsensible.refused e).not.1 nofun
  have hopen : CanOpen ⟨∅⟩ sensible.tiers :=
    canOpen_memory.2 (canOpen_memory.2 (canOpen_store.2 nofun))
  have hplace : "tiers[" ++ String.ofList (Text.decimal 1) ++ "]" = "tiers[1]" := by
    decide +kernel
  have hrefused : misplaced.Refused (.invalidValue "tiers[1]" "sql"
      "the persistent tier must be last in the chain") := by
    rw [← misplaced.validate_eq_error_iff, ← hplace]
    rfl
  exact ⟨⟨hnone, hopen⟩, hsensible.built hnone hopen,
    ((builds_ofConfig ⟨∅⟩ misplaced).refused _).2 hrefused⟩

end Chain
end RecordCache
