/-!
# The guard of a tier

A memory tier with a next tier runs its operations under a guard, for reading or for writing, so
that both tiers change together; a tier alone needs none. The guard lets one operation after the
other run and does not touch what it gives.
-/

namespace RecordCache

universe u

/-- Whether operations run under a guard. -/
structure Guard where
  guarded : Bool
  deriving DecidableEq

namespace Guard

/-- A guard if there is a next tier. -/
def forChain (chained : Bool) : Guard := ⟨chained⟩

/-- No guard. -/
def absent : Guard := ⟨false⟩

/-- Runs an operation that only reads. -/
def read {α : Type u} (_ : Guard) (operation : Unit → α) : α := operation ()

/-- Runs an operation that writes. -/
def write {α : Type u} (_ : Guard) (operation : Unit → α) : α := operation ()

end Guard
end RecordCache
