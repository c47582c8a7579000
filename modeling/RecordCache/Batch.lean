import RecordCache.Record

/-!
# Batches

Calls name many keys or records at once. A batch is taken apart for statements that bind a limited
number of parameters, and what was found is put back into the order in which it was asked for.

* `Batch.chunks` splits a list;
* `Batch.distinct` lists keys once each, in ascending order;
* `Batch.byKey` and `Batch.inOrder`: records by key, and records in the order of a list of keys.
-/

namespace RecordCache
namespace Batch

universe u

/-- Splits a list into stretches of `size` elements, the last one possibly shorter; stretches have
at least one element. -/
def chunks {α : Type u} (size : Nat) : List α → List (List α)
  | [] => []
  | x :: xs => (x :: xs.take (size - 1)) :: chunks size (xs.drop (size - 1))
termination_by xs => xs.length
decreasing_by simp only [List.length_drop, List.length_cons]; omega

/-- The keys in ascending order, each once. -/
def distinct (keys : List Key) : List Key := (SortedSet.ofList keys).toList

/-- The records by key; of two records of one key the later counts. -/
def byKey (records : List Record) : SortedMap Key Record :=
  .ofList (records.map fun r => (r.key, r))

/-- Takes the records of the keys, each at the first place where its key is listed. -/
def inOrder (found : SortedMap Key Record) : List Key → List Record
  | [] => []
  | key :: keys =>
    match found.find? key with
    | some r => r :: inOrder (found.erase key) keys
    | none => inOrder found keys

end Batch
end RecordCache
