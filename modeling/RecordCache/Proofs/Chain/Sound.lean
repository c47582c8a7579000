import RecordCache.Chain.Build
import RecordCache.Proofs.Chain.Keeps

/-!
# Chains in use

A chain of any depth that was built from sensible settings has memory tiers whose index, ticks and
weights are right and whose records are under their own keys, and it stays so whatever commands it
is given. Of the persistent tier nothing is asked: its rows may be damaged, and its table missing.

* `Memory.Sound`, `Chain.Sound` are the invariant of a tier and of a chain;
* `Chain.sound_assemble`: a chain that was built is sound;
* `Chain.Sound.keeps`: a chain stays sound by what commands keep, with `Chain.sound_load` for a read
  and `Chain.sound_run` for any command;
* `Chain.sound_after`: every chain in use is sound.
-/

namespace RecordCache

/-- The state of a memory tier that was made with sensible settings and has been in use since. -/
structure Memory.Sound (m : Memory) : Prop where
  valid : m.lru.Valid
  keyed : m.lru.All Memory.IsKeyed
  lasting : m.lru.expireAfter ≠ some ⟨0⟩

namespace Memory

variable {m m' : Memory}

theorem sound_new {config : MemoryConfig} (hconfig : config.validate = .ok ()) (weigh : Weigher) :
    (new config weigh).Sound := by
  refine ⟨Lru.valid_new _ _ _, Lru.all_of_empty rfl, fun hzero => ?_⟩
  have hexpire : config.expireAfter = some ⟨0⟩ := hzero
  rw [MemoryConfig.validate, if_pos hexpire] at hconfig
  split at hconfig <;> cases hconfig

theorem sound_of_new? {config : MemoryConfig} {weigh : Weigher} (h : new? config weigh = .ok m) :
    m.Sound := by
  rw [new?] at h
  split at h
  · cases h
  · rename_i hvalid
    cases h
    exact sound_new hvalid weigh

theorem Sound.keeps (h : m.Sound) (hkeeps : Keeps m m') : m'.Sound := by
  obtain ⟨hvalid, hsettings, hall⟩ := hkeeps.lru h.valid
  exact ⟨hvalid, hall h.keyed, hsettings.expireAfter ▸ h.lasting⟩

end Memory

namespace Chain

/-- Every memory tier is in a sound state. -/
def Sound : Chain → Prop
  | empty => True
  | store _ => True
  | memory m next => m.Sound ∧ next.Sound

variable {chain : Chain} (now : Instant)

theorem sound_assemble {disk disk' : Disk} {plans : List TierPlan}
    (h : assemble disk plans = .ok (chain, disk')) : chain.Sound := by
  induction plans generalizing disk disk' chain with
  | nil =>
    cases h
    exact trivial
  | cons plan plans ih =>
    rw [assemble] at h
    obtain ⟨⟨next, behind⟩, hnext, h⟩ := ok_of_bind h
    cases hplan : plan.config with
    | memory config =>
      simp only [hplan] at h
      obtain ⟨m, hm, h⟩ := ok_of_bind h
      cases h
      exact ⟨Memory.sound_of_new? hm, ih hnext⟩
    | store config =>
      simp only [hplan] at h
      obtain ⟨opened, -, h⟩ := ok_of_bind h
      cases h
      exact trivial

theorem Sound.keyed (h : chain.Sound) : chain.Keyed := by
  induction chain with
  | empty => exact trivial
  | store s => exact trivial
  | memory m next ih => exact ⟨h.1.keyed, ih h.2⟩

theorem Sound.keeps {chain' : Chain} (h : chain.Sound) (hkeeps : chain.Keeps chain') :
    chain'.Sound := by
  induction hkeeps with
  | empty => exact trivial
  | store s s' => exact trivial
  | memory hm _ ih => exact ⟨h.1.keeps hm, ih h.2⟩

/-- A read keeps a chain sound, and gives a record of the key that it is asked for. -/
theorem sound_load (h : chain.Sound) (key : Key) (headers : Headers) :
    (chain.load now key headers).state.Sound ∧
      ∀ r, (chain.load now key headers).value = some r → r.key = key :=
  (keeps_load now h.keyed key headers).imp_left h.keeps

theorem sound_run (h : chain.Sound) (command : Command) :
    (chain.run now command).state.Sound :=
  h.keeps (keeps_run now h.keyed command)

/-- A chain in use stays sound. -/
theorem sound_after (h : chain.Sound) (commands : List (Instant × Command)) :
    (chain.after commands).Sound :=
  after_induction (P := Sound) (A := fun _ => True)
    (fun _ now command _ h => sound_run now h command) (fun _ _ => trivial) h

end Chain
end RecordCache
