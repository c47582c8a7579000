import RecordCache.Proofs.Changes
import RecordCache.Proofs.Record.Shape

/-!
# Merging field by field

A function decides about the fields that two records share, and may do to them and to their metadata
what it likes. All other fields are taken from the one record that has them, no metadata entry is
lost, and the fields told are those in which something is different.

* `Key.fieldPath_inj`: a path belongs to one field;
* `Merger.isChanged_iff`: when a field counts as changed;
* `Merger.MergesFields` says what two records are to give, and `Merger.byField_merges_fields` that
  they do, whichever function decides.
-/

namespace RecordCache

theorem Key.fieldPath_inj {key : Key} {field field' : String} :
    key.fieldPath field = key.fieldPath field' ↔ field = field' :=
  String.append_right_inj _

namespace Merger

variable {existing incoming : Record} {headers : Headers} {field : String}

/-- A field that holds no floating-point number counts as changed exactly if it is to hold another
value or other metadata entries. -/
theorem isChanged_iff (hexact : existing.IsExact) {result : FieldInfo} :
    isChanged existing field result = true ↔
      some result.value ≠ existing.fields.find? field ∨
        result.metadata ≠ existing.metadataOf field := by
  by_cases hsame : existing.fields.find? field = some result.value
  · have hvalue : result.value.equals result.value = true :=
      (hexact.fields field _ hsame).equals_iff.2 rfl
    have hmetadata := FieldMetadata.equals_iff (b := result.metadata) (hexact.metadataOf field)
    rw [isChanged, hsame]
    simp [hvalue, ← hmetadata, eq_comm (a := result.metadata)]
  · exact iff_of_true (isChanged_of_ne (hexact.fields field) hsame) (.inl (Ne.symm hsame))

/-- Two records give the fields of both, those that they share by a function, and tell the fields in
which something is different. -/
structure MergesFields (merge : FieldMerger) (existing incoming : Record) (merged : Merged) :
    Prop where
  shared : ∀ field old value, existing.fields.find? field = some old →
    incoming.fields.find? field = some value →
    let result := merge ⟨old, existing.metadataOf field⟩ ⟨value, incoming.metadataOf field⟩
    merged.record.fields.find? field = some result.value ∧
      ∀ name, (merged.record.metadataOf field).find? name =
        (result.metadata.find? name).or ((existing.metadataOf field).find? name)
  arriving : ∀ field value, existing.fields.find? field = none →
    incoming.fields.find? field = some value →
    merged.record.fields.find? field = some value ∧
      ∀ name, (merged.record.metadataOf field).find? name =
        ((incoming.metadataOf field).find? name).or ((existing.metadataOf field).find? name)
  staying : ∀ field, incoming.fields.find? field = none →
    merged.record.fields.find? field = existing.fields.find? field ∧
      merged.record.metadata.find? field = existing.metadata.find? field
  kept : ∀ field name, (existing.metadataOf field).contains name = true →
    (merged.record.metadataOf field).contains name = true
  changed : ∀ field, merged.changed.contains (existing.key.fieldPath field) = true ↔
    merged.record.fields.find? field ≠ existing.fields.find? field ∨
      merged.record.metadataOf field ≠ existing.metadataOf field
  paths : ∀ path, merged.changed.contains path = true →
    ∃ field, incoming.fields.contains field = true ∧ path = existing.key.fieldPath field

section ByField

variable {merge : FieldMerger} {old value : Value}

theorem mergeField_shared (hold : existing.fields.find? field = some old) :
    mergeField merge existing incoming field value =
      let result := merge ⟨old, existing.metadataOf field⟩ ⟨value, incoming.metadataOf field⟩
      ⟨result.value, (existing.metadataOf field).overlay result.metadata⟩ := by
  rw [mergeField, hold]

theorem mergeField_arriving (hnone : existing.fields.find? field = none) :
    mergeField merge existing incoming field value =
      ⟨value, (existing.metadataOf field).overlay (incoming.metadataOf field)⟩ := by
  rw [mergeField, hnone]

/-- A field that does not arrive stays as it is. -/
theorem byField_stays (merge : FieldMerger) (hnone : incoming.fields.find? field = none) :
    let merged := ((byField merge).merge existing incoming headers).record
    merged.fields.find? field = existing.fields.find? field ∧
      merged.metadata.find? field = existing.metadata.find? field := by
  constructor
  · rw [find?_fields_byField, hnone]
    rfl
  · rw [find?_metadata_byField, hnone]
    rfl

theorem contains_metadataOf_byField (merge : FieldMerger) {name : String}
    (h : (existing.metadataOf field).contains name = true) :
    (((byField merge).merge existing incoming headers).record.metadataOf field).contains name =
      true := by
  rw [metadataOf_byField]
  cases incoming.fields.find? field with
  | none => exact h
  | some value =>
    show (((existing.metadataOf field).overlay _).find? name).isSome = true
    rw [SortedMap.find?_overlay, Option.isSome_or]
    exact Bool.or_eq_true_iff.2 (.inr h)

/-- A field of a record without floating-point numbers is told exactly if something is different. -/
theorem contains_changed_byField_iff (merge : FieldMerger) (hexact : existing.IsExact) :
    let merged := (byField merge).merge existing incoming headers
    merged.changed.contains (existing.key.fieldPath field) = true ↔
      merged.record.fields.find? field ≠ existing.fields.find? field ∨
        merged.record.metadataOf field ≠ existing.metadataOf field := by
  intro merged
  -- no other field has the path, so it is this one that is told by it
  have htold : merged.changed.contains (existing.key.fieldPath field) = true ↔
      ∃ value, incoming.fields.find? field = some value ∧
        isChanged existing field (mergeField merge existing incoming field value) = true := by
    rw [contains_changed_byField]
    constructor
    · rintro ⟨_, value, hvalue, hchanged, hpath⟩
      obtain rfl := Key.fieldPath_inj.1 hpath
      exact ⟨value, hvalue, hchanged⟩
    · rintro ⟨value, hvalue, hchanged⟩
      exact ⟨field, value, hvalue, hchanged, rfl⟩
  rw [htold]
  cases hfind : incoming.fields.find? field with
  | none =>
    obtain ⟨hfields, hmetadata⟩ : merged.record.fields.find? field = existing.fields.find? field ∧
        merged.record.metadata.find? field = existing.metadata.find? field :=
      byField_stays merge hfind
    have hentries : merged.record.metadataOf field = existing.metadataOf field :=
      congrArg (·.getD ∅) hmetadata
    simp [hfields, hentries]
  | some value =>
    obtain ⟨hfields, hmetadata⟩ : merged.record.fields.find? field = some _ ∧
      merged.record.metadataOf field = _ := byField_arrives merge hfind
    rw [hfields, hmetadata, ← isChanged_iff hexact]
    simp

/-- A field that arrives has the value that is made of it, and the metadata made of it are laid over
the stored ones. -/
theorem byField_lays (merge : FieldMerger) (info : FieldInfo)
    (hvalue : incoming.fields.find? field = some value)
    (hinfo : mergeField merge existing incoming field value =
      ⟨info.value, (existing.metadataOf field).overlay info.metadata⟩) :
    let merged := ((byField merge).merge existing incoming headers).record
    merged.fields.find? field = some info.value ∧
      ∀ name, (merged.metadataOf field).find? name =
        (info.metadata.find? name).or ((existing.metadataOf field).find? name) := by
  intro merged
  obtain ⟨hfields, hmetadata⟩ : merged.fields.find? field = some _ ∧
    merged.metadataOf field = _ := byField_arrives merge hvalue
  rw [hfields, hmetadata, hinfo]
  exact ⟨rfl, SortedMap.find?_overlay _ _⟩

/-- **Field by field.** Two records of one key give the fields of both: those that they share as the
function decides, the others as they are. Stored metadata entries are only added to, and those of
fields that do not arrive stay. If the stored record holds no floating-point number, the fields told
are those that are different from before. -/
theorem byField_merges_fields (merge : FieldMerger) (hkey : existing.key = incoming.key)
    (hexact : existing.IsExact) : ∃ merged,
      (byField merge).merge? existing incoming headers = .ok merged ∧
      MergesFields merge existing incoming merged := by
  refine ⟨(byField merge).merge existing incoming headers, if_pos hkey, ?_⟩
  exact {
    shared := fun field old value hold hvalue =>
      byField_lays merge (merge ⟨old, existing.metadataOf field⟩ ⟨value, incoming.metadataOf field⟩)
        hvalue (mergeField_shared hold)
    arriving := fun field value hnone hvalue =>
      byField_lays merge ⟨value, incoming.metadataOf field⟩ hvalue (mergeField_arriving hnone)
    staying := fun _ => byField_stays merge
    kept := fun _ _ => contains_metadataOf_byField merge
    changed := fun _ => contains_changed_byField_iff merge hexact
    paths := fun path hpath => by
      obtain ⟨field, value, hvalue, -, rfl⟩ := (contains_changed_byField merge).1 hpath
      exact ⟨field, SortedMap.contains_iff.2 ⟨value, hvalue⟩, rfl⟩ }

/-- A sum keeps the stored note that it drops, and a count that stays the same is not told. -/
theorem byField_merges_fields_sum :
    let existing : Record := ⟨⟨"a"⟩, "T",
      .ofList [("count", .int 2), ("old", .null), ("same", .int 7)],
      .ofList [("count", .ofList [("note", .ofInt64 1)])], none⟩
    let incoming : Record := ⟨⟨"a"⟩, "T",
      .ofList [("count", .int 3), ("new", .null), ("same", .int 0)],
      .ofList [("count", .ofList [("note", .ofInt64 5)]), ("new", .ofList [("seen", .null)])],
      none⟩
    (existing.key = incoming.key ∧ existing.IsExact) ∧ ∃ merged,
      (byField sumFields).merge? existing incoming Headers.none = .ok merged ∧
      merged.record.fields.find? "count" = some (.int 5) ∧
      (merged.record.metadataOf "count").find? "note" = some (.ofInt64 1) ∧
      merged.record.fields.find? "old" = some .null ∧
      merged.record.fields.find? "new" = some .null ∧
      (merged.record.metadataOf "new").find? "seen" = some .null ∧
      merged.changed.contains "a.count" = true ∧ merged.changed.contains "a.same" = false := by
  intro existing incoming
  have hint (n : Int64) : (Value.int n).HasShape .exact := ⟨1, .int n⟩
  have hexact : existing.IsExact := by
    refine ⟨SortedMap.all_ofList (List.forall_mem_cons.2 ⟨hint 2, List.forall_mem_cons.2
      ⟨⟨0, .null⟩, List.forall_mem_singleton.2 (hint 7)⟩⟩), ?_⟩
    exact SortedMap.all_empty.insert (SortedMap.all_empty.insert (.integer _))
  have hkey : existing.key = incoming.key := rfl
  obtain ⟨merged, hmerged, h⟩ := byField_merges_fields sumFields hkey hexact
  obtain ⟨hcount, hnote⟩ := h.shared "count" (.int 2) (.int 3) rfl rfl
  obtain ⟨hnew, hseen⟩ := h.arriving "new" .null rfl rfl
  have htold : merged.changed.contains "a.count" = true := by
    refine (h.changed "count").2 (.inl fun hsame => ?_)
    cases hcount.symm.trans hsame
  refine ⟨⟨hkey, hexact⟩, merged, hmerged, hcount, hnote "note", (h.staying "old" rfl).1, hnew,
    hseen "seen", htold, ?_⟩
  cases hmerged
  decide +kernel

end ByField

end Merger
end RecordCache
