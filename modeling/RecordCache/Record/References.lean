import RecordCache.Record

/-!
# References of a record

The keys that a record refers to, found by a worklist that starts with the values of its fields
and takes lists and objects apart as it meets them.

* `Value.nodes`: a measure that shrinks with each value taken from the worklist;
* `Record.referencedKeys`: the keys referred to from any field, at any depth.
-/

namespace RecordCache
namespace Value

mutual

/-- One more than the values inside. -/
def nodes : Value → Nat
  | list items => itemNodes items + 1
  | object members => memberNodes members + 1
  | _ => 1

/-- The number of values inside the items. -/
def itemNodes : List Value → Nat
  | [] => 0
  | item :: items => item.nodes + itemNodes items

/-- The number of values inside the members. -/
def memberNodes : List (String × Value) → Nat
  | [] => 0
  | (_, value) :: members => value.nodes + memberNodes members

end

theorem itemNodes_append (xs ys : List Value) :
    itemNodes (xs ++ ys) = itemNodes xs + itemNodes ys := by
  induction xs with
  | nil => simp [itemNodes]
  | cons x xs ih => simp [itemNodes, ih, Nat.add_assoc]

theorem itemNodes_map_snd (members : List (String × Value)) :
    itemNodes (members.map Prod.snd) = memberNodes members := by
  induction members with
  | nil => simp [itemNodes, memberNodes]
  | cons member members ih => simp [itemNodes, memberNodes, ih]

/-- The values directly inside a list or an object. -/
def children : Value → List Value
  | list items => items
  | object members => members.map Prod.snd
  | _ => []

theorem nodes_eq (v : Value) : v.nodes = itemNodes v.children + 1 := by
  cases v <;> simp [children, nodes, itemNodes, itemNodes_map_snd]

theorem itemNodes_children_lt (v : Value) : itemNodes v.children < v.nodes := by
  rw [nodes_eq]
  exact Nat.lt_succ_self _

/-- Adds the keys referred to by the pending values, first in first out. -/
def collectReferences (keys : SortedSet Key) (pending : List Value) : SortedSet Key :=
  match pending with
  | [] => keys
  | value :: rest =>
    let keys :=
      match value.reference? with
      | some key => keys.insert key
      | none => keys
    collectReferences keys (rest ++ value.children)
termination_by itemNodes pending
decreasing_by
  have := itemNodes_children_lt value
  simp only [itemNodes_append, itemNodes]
  omega

end Value

namespace Record

/-- The keys referred to from any field, at any depth. -/
def referencedKeys (r : Record) : SortedSet Key := Value.collectReferences ∅ r.fields.values

end Record
end RecordCache
