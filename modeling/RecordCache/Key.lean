/-!
# Record keys

A record is stored under a key, which is any text. Keys are ordered by code point, the order in
which they are listed and stored.

* `Key` with its order;
* `Key.query`, `Key.mutation`, `Key.subscription`: the keys of the three root records;
* `Key.fieldPath`: the path of one field of the record under a key.
-/

namespace RecordCache

/-- The key of a record. -/
structure Key where
  text : String
  deriving DecidableEq, Inhabited, Repr

namespace Key

instance : Ord Key := ⟨fun a b => compare a.text b.text⟩

theorem compare_eq (j k : Key) : compare j k = compare j.text k.text := rfl

instance : Std.TransOrd Key where
  eq_swap := by
    intro j k
    rw [compare_eq, compare_eq]
    exact Std.OrientedCmp.eq_swap
  isLE_trans := by
    intro i j k
    rw [compare_eq, compare_eq, compare_eq]
    exact Std.TransCmp.isLE_trans

instance : Std.LawfulEqOrd Key where
  compare_self := by
    intro k
    rw [compare_eq]
    exact Std.ReflCmp.compare_self
  eq_of_compare := by
    intro j k h
    rw [compare_eq] at h
    exact congrArg Key.mk (Std.LawfulEqCmp.eq_of_compare h)

/-- The record at the root of all queries. -/
def query : Key := ⟨"QUERY_ROOT"⟩

/-- The record at the root of all mutations. -/
def mutation : Key := ⟨"MUTATION_ROOT"⟩

/-- The record at the root of all subscriptions. -/
def subscription : Key := ⟨"SUBSCRIPTION_ROOT"⟩

/-- The keys of the root records. -/
def roots : List Key := [query, mutation, subscription]

/-- Whether the key is that of a root record. -/
def isRoot (key : Key) : Bool := roots.contains key

/-- The path of a field: the key, a point and the name of the field. -/
def fieldPath (key : Key) (field : String) : String := key.text ++ "." ++ field

end Key

end RecordCache
