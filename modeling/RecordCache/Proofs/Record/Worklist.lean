import Mathlib.Logic.Function.Iterate
import RecordCache.Proofs.Record.References
import RecordCache.Proofs.Value.Codec

/-!
# The worklist of references

The keys that a record refers to are collected in rounds. A round takes the first pending value from
the worklist, adds the key that the value refers to, and puts the values directly inside it at the
end.

* `Value.mem_references_iff`: the keys listed along the structure of a value are those that it
  refers to;
* `Value.blank` keeps the references of a value, where they stand, and nothing else;
* `Worklist.step` is a round, and `Worklist.collected` what is collected once nothing is pending,
  which no round changes;
* `Worklist.size` counts the values pending and all inside them. A round takes one from them
  (`Worklist.size_step`), so that the rounds are as many as the values;
* `Record.referencedKeys_exact`: the keys collected from a record, and when the rounds are over.
-/

namespace RecordCache
namespace Value

theorem itemReferences_eq (items : List Value) :
    itemReferences items = items.flatMap references := by
  induction items with
  | nil => rfl
  | cons item items ih => rw [itemReferences, ih, List.flatMap_cons]

theorem itemReferences_map {f : Value → Value} {items : List Value}
    (h : ∀ item ∈ items, (f item).references = item.references) :
    itemReferences (items.map f) = itemReferences items := by
  rw [itemReferences_eq, itemReferences_eq, List.flatMap_map]
  exact List.flatMap_congr h

theorem memberReferences_eq (members : List (String × Value)) :
    memberReferences members = itemReferences (members.map Prod.snd) := by
  induction members with
  | nil => rfl
  | cons member members ih => rw [memberReferences, ih, List.map_cons, itemReferences]

/-- What a value refers to is the key of the reference that it is, or what its children refer to. -/
theorem references_eq (v : Value) :
    v.references = v.reference?.toList ++ itemReferences v.children := by
  cases v with
  | object members => simp [references, reference?, children, memberReferences_eq]
  | _ => simp [references, reference?, children, itemReferences]

/-- What holds of a value when it holds of its children holds of every value. -/
theorem children_induction {P : Value → Prop}
    (parent : ∀ v : Value, (∀ child ∈ v.children, P child) → P v) (v : Value) : P v := by
  induction v using Value.induction with
  | list items ih => exact parent _ ih
  | object members ih => exact parent _ (List.forall_mem_map.2 ih)
  | _ => exact parent _ nofun

theorem mem_references_iff {key : Key} {v : Value} : key ∈ v.references ↔ v.Refers key := by
  induction v using children_induction with
  | parent v ih =>
    rw [references_eq, itemReferences_eq, List.mem_append, List.mem_flatMap, refers_iff,
      Option.mem_toList]
    exact or_congr_right (exists_congr fun child => and_congr_right (ih child))

mutual

/-- The value with its references where they stand and nothing else: other data and errors are null,
and members have no names. -/
def blank : Value → Value
  | reference key => reference key
  | list items => list (blankItems items)
  | object members => object (blankMembers members)
  | _ => null

/-- The items with nothing but their references. -/
def blankItems : List Value → List Value
  | [] => []
  | item :: items => item.blank :: blankItems items

/-- The members with nothing but their references. -/
def blankMembers : List (String × Value) → List (String × Value)
  | [] => []
  | (_, value) :: members => ("", value.blank) :: blankMembers members

end

theorem blankItems_eq (items : List Value) : blankItems items = items.map blank := by
  induction items with
  | nil => rfl
  | cons item items ih => rw [blankItems, ih, List.map_cons]

theorem map_snd_blankMembers (members : List (String × Value)) :
    (blankMembers members).map Prod.snd = (members.map Prod.snd).map blank := by
  induction members with
  | nil => rfl
  | cons member members ih => rw [blankMembers, List.map_cons, ih, List.map_cons, List.map_cons]

theorem reference?_blank (v : Value) : v.blank.reference? = v.reference? := by
  cases v <;> rfl

theorem children_blank (v : Value) : v.blank.children = v.children.map blank := by
  cases v with
  | list items => exact blankItems_eq items
  | object members => exact map_snd_blankMembers members
  | _ => rfl

theorem references_blank (v : Value) : v.blank.references = v.references := by
  induction v using children_induction with
  | parent v ih =>
    rw [references_eq, references_eq v, reference?_blank, children_blank, itemReferences_map ih]

end Value

/-- The state between two rounds: the keys collected so far, and the values not yet looked at, those
next in turn first. -/
structure Worklist where
  keys : SortedSet Key
  pending : List Value

namespace Worklist

/-- The state before the first round over the fields of a record. -/
def ofRecord (r : Record) : Worklist := ⟨∅, r.fields.values⟩

/-- One round. With nothing pending the state stays as it is. -/
def step : Worklist → Worklist
  | ⟨keys, []⟩ => ⟨keys, []⟩
  | ⟨keys, value :: rest⟩ =>
    { keys :=
        match value.reference? with
        | some key => keys.insert key
        | none => keys
      pending := rest ++ value.children }

/-- What is collected once nothing is pending. -/
def collected (w : Worklist) : SortedSet Key := Value.collectReferences w.keys w.pending

/-- The number of values pending, with all inside them. -/
def size (w : Worklist) : Nat := Value.itemNodes w.pending

theorem collected_step (w : Worklist) : w.step.collected = w.collected := by
  obtain ⟨keys, pending⟩ := w
  cases pending with
  | nil => rfl
  | cons value rest =>
    rw [collected, collected, Value.collectReferences]
    rfl

/-- The children of the value taken are all that comes in its place. -/
theorem size_step (w : Worklist) : w.step.size = w.size - 1 := by
  obtain ⟨keys, pending⟩ := w
  cases pending with
  | nil => rfl
  | cons value rest =>
    simp only [size, step, Value.itemNodes_append, Value.itemNodes, Value.nodes_eq]
    omega

theorem pending_eq_nil_iff (w : Worklist) : w.pending = [] ↔ w.size = 0 := by
  obtain ⟨keys, pending⟩ := w
  cases pending with
  | nil => simp [size, Value.itemNodes]
  | cons value rest => simp [size, Value.itemNodes, Value.nodes_eq]

theorem size_iterate (w : Worklist) (n : Nat) : (step^[n] w).size = w.size - n := by
  induction n with
  | zero => rfl
  | succ n ih => rw [Function.iterate_succ_apply', size_step, ih, Nat.sub_sub]

theorem collected_iterate (w : Worklist) (n : Nat) : (step^[n] w).collected = w.collected := by
  induction n with
  | zero => rfl
  | succ n ih => rw [Function.iterate_succ_apply', collected_step, ih]

/-- The rounds are over after as many as there are values, and no sooner. -/
theorem pending_iterate (w : Worklist) (n : Nat) : (step^[n] w).pending = [] ↔ w.size ≤ n := by
  rw [pending_eq_nil_iff, size_iterate, Nat.sub_eq_zero_iff_le]

theorem iterate_step {w : Worklist} {n : Nat} (h : w.size ≤ n) :
    step^[n] w = ⟨w.collected, []⟩ := by
  have hcollected := w.collected_iterate n
  have hpending := (w.pending_iterate n).2 h
  generalize step^[n] w = done at hcollected hpending
  obtain ⟨keys, pending⟩ := done
  subst hpending
  rw [← hcollected, collected, Value.collectReferences]

end Worklist

namespace Record

theorem referencedKeys_eq (r : Record) :
    r.referencedKeys = .ofList (Value.itemReferences r.fields.values) := by
  ext key
  have hnone : (∅ : SortedSet Key).contains key = false := rfl
  rw [Bool.eq_iff_iff, referencedKeys, Value.contains_collectReferences, SortedSet.contains_ofList,
    decide_eq_true_iff, Value.itemReferences_eq, List.mem_flatMap]
  simp [hnone, Value.mem_references_iff]

/-- **What a record refers to.** A key is among those collected exactly when a reference to it
stands in the value of a field, at whatever depth. There are as many rounds as values in the record,
at all depths, and after the last of them nothing is pending and these keys are collected. Records
whose values agree in their references have the same keys, whatever their strings, the names of
members and fields, their errors and their metadata are. -/
theorem referencedKeys_exact (r : Record) :
    (∀ key, r.referencedKeys.contains key = true ↔
      ∃ field value, r.fields.find? field = some value ∧ key ∈ value.references) ∧
    (∀ n, (Worklist.step^[n] (.ofRecord r)).pending = [] ↔ Value.itemNodes r.fields.values ≤ n) ∧
    (∀ n, Value.itemNodes r.fields.values ≤ n →
      Worklist.step^[n] (.ofRecord r) = ⟨r.referencedKeys, []⟩) ∧
    ∀ s : Record, s.fields.values.map Value.blank = r.fields.values.map Value.blank →
      s.referencedKeys = r.referencedKeys := by
  refine ⟨fun key => ?_, fun n => ?_, fun n hn => ?_, fun s hblank => ?_⟩
  · rw [contains_referencedKeys]
    simp only [Refers, Value.mem_references_iff]
  · exact (Worklist.ofRecord r).pending_iterate n
  · exact Worklist.iterate_step hn
  · have hkeys (t : Record) : t.referencedKeys =
        .ofList (Value.itemReferences (t.fields.values.map Value.blank)) := by
      rw [referencedKeys_eq, Value.itemReferences_map fun value _ => value.references_blank]
    rw [hkeys, hkeys, hblank]

/-- A key that is a string, the name of a member and of a field, the message of an error and its
path, metadata and their name, the type and the record's own key. It is not collected, and nothing
else is when other texts stand in its place. -/
theorem referencedKeys_exact_key_in_texts :
    let named : Record :=
      { key := ⟨"user:9"⟩
        typeName := "user:9"
        fields := ((∅ : SortedMap String Value).insert "owner"
          (.object [("user:9", .list [.string "user:9", .reference ⟨"user:1"⟩])])).insert "user:9"
            (.error ⟨"user:9", ["user:9"]⟩)
        metadata := (∅ : SortedMap String FieldMetadata).insert "owner"
          ((∅ : FieldMetadata).insert "user:9" (.string "user:9"))
        mutation := none }
    let other : Record := ((Record.new ⟨"post:1"⟩ "Post").withField "author"
      (.object [("first", .list [.int 3, .reference ⟨"user:1"⟩])])).withField "title" .null
    (Value.itemNodes named.fields.values ≤ 5 ∧
      other.fields.values.map Value.blank = named.fields.values.map Value.blank) ∧
    named.referencedKeys.toList = [⟨"user:1"⟩] ∧
    Worklist.step^[5] (.ofRecord named) = ⟨named.referencedKeys, []⟩ ∧
    other.referencedKeys = named.referencedKeys := by
  intro named other
  have hrounds : Value.itemNodes named.fields.values ≤ 5 := by decide +kernel
  have hblank : other.fields.values.map Value.blank = named.fields.values.map Value.blank := rfl
  obtain ⟨-, -, hdone, hsame⟩ := referencedKeys_exact named
  exact ⟨⟨hrounds, hblank⟩, by decide +kernel, hdone 5 hrounds, hsame other hblank⟩

end Record
end RecordCache
