import RecordCache.Error

/-!
# Outcomes of operations

A tier never fails: when its storage does, the call gives an empty result and the error is
reported. An outcome holds the result, the state after the call and the reports.
-/

namespace RecordCache

universe u v w

/-- A storage error met by an operation. -/
structure Report where
  operation : String
  error : CacheError
  deriving DecidableEq, Inhabited

/-- The result of a call, the state after it and what it reported. -/
structure Outcome (σ : Type u) (α : Type v) where
  value : α
  state : σ
  reports : List Report

namespace Outcome

variable {σ : Type u} {α : Type v} {β : Type w}

/-- The outcome with another result. -/
def mapValue (f : α → β) (outcome : Outcome σ α) : Outcome σ β :=
  ⟨f outcome.value, outcome.state, outcome.reports⟩

/-- The outcome seen from a larger state. -/
def mapState {τ : Type w} (f : σ → τ) (outcome : Outcome σ α) : Outcome τ α :=
  ⟨outcome.value, f outcome.state, outcome.reports⟩

end Outcome
end RecordCache
