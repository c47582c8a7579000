import RecordCache.Merge

/-!
# Windows of a list

A field may hold a window of a longer list: its items, and in the metadata the position of the
first. Two windows that overlap or touch merge into their union, incoming items winning; across a
gap the incoming window replaces the stored one.
-/

namespace RecordCache
namespace Window

/-- The metadata entry with the position of the first item. -/
def offset : String := "offset"

/-- The position behind the last of so many items, or the largest position. -/
def endOf (first : Int64) (count : Nat) : Int :=
  min (first.toInt + count) Int64.maxValue.toInt

/-- The item at a position of a window that starts at `first`. -/
def itemAt? (items : List Value) (first : Int64) (position : Int) : Option Value :=
  if position < first.toInt then none else items[(position - first.toInt).toNat]?

/-- The items of the union of two windows, position by position. -/
def splice (first : Int64) (items : List Value) (newFirst : Int64) (newItems : List Value) :
    List Value :=
  let start := min first.toInt newFirst.toInt
  let stop := max (endOf first items.length) (endOf newFirst newItems.length)
  (List.range (stop - start).toNat).filterMap fun (step : Nat) =>
    let position := start + (step : Int)
    if newFirst.toInt ≤ position ∧ position < endOf newFirst newItems.length then
      itemAt? newItems newFirst position
    else itemAt? items first position

/-- Merges two windows of a list. -/
def merge : FieldMerger := fun existing incoming =>
  match existing.metadata.int64? offset, incoming.metadata.int64? offset,
    existing.value, incoming.value with
  | some first, some newFirst, .list items, .list newItems =>
    if newFirst.toInt > endOf first items.length ∨ first.toInt > endOf newFirst newItems.length then
      incoming
    else
      ⟨.list (splice first items newFirst newItems),
        (existing.metadata.overlay incoming.metadata).insert offset (.ofInt64 (min first newFirst))⟩
  | _, _, _, _ => incoming

end Window

/-- Merges windows of lists field by field. -/
def Merger.window : Merger := Merger.byField Window.merge

end RecordCache
