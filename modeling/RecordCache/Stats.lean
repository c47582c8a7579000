import RecordCache.Binary64
import RecordCache.Word

/-!
# Usage of a tier

Counters of a memory tier, and the share of reads that hit.
-/

namespace RecordCache

/-- How a memory tier has been used. -/
structure Stats where
  hits : Nat
  misses : Nat
  /-- The entries held. -/
  entryCount : Nat
  /-- The weight of the entries held. -/
  memoryBytes : Nat
  /-- The entries dropped for their age or for want of room. -/
  evictions : Nat
  deriving DecidableEq, Inhabited, Repr

namespace Stats

/-- The hits divided by all reads, zero when there were none; none when the reads together do not
fit 64 bits. -/
def hitRate? (stats : Stats) : Option Binary64 :=
  let total := stats.hits + stats.misses
  if Word.count64 ≤ total then none
  else if total = 0 then some ⟨0⟩
  else some (.ofFloat ((Binary64.ofNat64 stats.hits).toFloat / (Binary64.ofNat64 total).toFloat))

end Stats
end RecordCache
