import Mathlib.Data.List.Forall2
import RecordCache.Chain

/-!
# Traces of a chain

A run of a chain is a list of commands, each given at a moment of its own; what the run shows is
the list of outcomes.

* `Chain.trace` lists the outcomes, `Chain.after` is the chain that a run leaves behind;
* `Chain.after_induction`: what every command keeps, a run keeps;
* `Chain.forall_trace`, `Chain.forall₂_trace`: what holds of every command, in one run or in two
  runs of the same commands side by side, holds of the whole trace.
-/

namespace RecordCache
namespace Chain

/-- The outcomes of commands, each run on the chain that the one before left behind. -/
def trace (chain : Chain) : List (Instant × Command) → List (Outcome Chain Reply)
  | [] => []
  | (now, command) :: rest =>
    chain.run now command :: trace (chain.run now command).state rest

/-- The chain that commands leave behind. -/
def after (chain : Chain) (commands : List (Instant × Command)) : Chain :=
  commands.foldl (fun chain timed => (chain.run timed.1 timed.2).state) chain

/-- What every admitted command keeps, a run of admitted commands keeps. -/
theorem after_induction {P : Chain → Prop} {A : Command → Prop}
    (hstep : ∀ chain now command, A command → P chain → P (chain.run now command).state)
    {commands : List (Instant × Command)} (hadmitted : ∀ timed ∈ commands, A timed.2)
    {chain : Chain} (h : P chain) : P (chain.after commands) := by
  induction commands generalizing chain with
  | nil => exact h
  | cons timed commands ih =>
    obtain ⟨hfirst, hrest⟩ := List.forall_mem_cons.1 hadmitted
    exact ih hrest (hstep chain timed.1 timed.2 hfirst h)

/-- What an invariant gives for every outcome of an admitted command holds along a run. -/
theorem forall_trace {P : Chain → Prop} {Q : Outcome Chain Reply → Prop} {A : Command → Prop}
    (hstep : ∀ chain now command, A command → P chain →
      P (chain.run now command).state ∧ Q (chain.run now command))
    {commands : List (Instant × Command)} (hadmitted : ∀ timed ∈ commands, A timed.2)
    {chain : Chain} (h : P chain) : ∀ outcome ∈ chain.trace commands, Q outcome := by
  induction commands generalizing chain with
  | nil => exact List.forall_mem_nil _
  | cons timed commands ih =>
    obtain ⟨hfirst, hrest⟩ := List.forall_mem_cons.1 hadmitted
    obtain ⟨hstate, hout⟩ := hstep chain timed.1 timed.2 hfirst h
    exact List.forall_mem_cons.2 ⟨hout, ih hrest hstate⟩

/-- Two chains that stay related go through related outcomes, as long as those of the first are
what they are to be. -/
theorem forall₂_trace {R : Chain → Chain → Prop} {N : Outcome Chain Reply → Prop}
    {Q : Outcome Chain Reply → Outcome Chain Reply → Prop} {A : Command → Prop}
    (hstep : ∀ a b now command, A command → N (a.run now command) → R a b →
      R (a.run now command).state (b.run now command).state ∧
        Q (a.run now command) (b.run now command))
    {commands : List (Instant × Command)} (hadmitted : ∀ timed ∈ commands, A timed.2)
    {a b : Chain} (hfirst : ∀ outcome ∈ a.trace commands, N outcome) (h : R a b) :
    List.Forall₂ Q (a.trace commands) (b.trace commands) := by
  induction commands generalizing a b with
  | nil => exact .nil
  | cons timed commands ih =>
    obtain ⟨hcommand, hcommands⟩ := List.forall_mem_cons.1 hadmitted
    obtain ⟨houtcome, houtcomes⟩ := List.forall_mem_cons.1 hfirst
    obtain ⟨hstate, hout⟩ := hstep a b timed.1 timed.2 hcommand houtcome h
    exact .cons hout (ih hcommands houtcomes hstate)

end Chain
end RecordCache
