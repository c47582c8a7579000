import RecordCache.Proofs.Contents

/-!
# Changes that a batch tells

A batch is merged record by record, and gives the paths of the fields that changed. A tier may leave
a merged record without fields unwritten; apart from that all tiers merge alike.

* `Contents.valueAt` is what is stored in a field;
* `Merger.ByFields.changed_of_ne`, `fieldPaths_of_changed`: what one merge tells, and
  `Merger.ne_of_changed` that the plain merger tells nothing else;
* `Contents.Merging`, `Contents.Batched`: one record merged, and a batch;
* `Contents.Tells` says that no field changes without being told, which one record keeps and so do
  more of them: `Merging.tells`, `Batched.tells`;
* `Contents.Told` says what a call is to tell of a batch, and `ToldOnly` that it tells nothing else:
  `Batched.told`, `Batched.ne_of_call`.
-/

namespace RecordCache

theorem Record.contains_fieldPaths {r : Record} {path : String} :
    r.fieldPaths.contains path = true ↔
      ∃ field, r.fields.contains field = true ∧ path = r.key.fieldPath field := by
  rw [fieldPaths, SortedSet.contains_ofList, decide_eq_true_iff, List.mem_map]
  refine exists_congr fun field => ?_
  rw [SortedMap.mem_keys, SortedMap.contains_iff, eq_comm (a := path)]

/-! ### One merge -/

namespace Merger

variable {merger : Merger} {existing incoming : Record} {headers : Headers} {field path : String}

theorem contains_changed_overwrite :
    (overwrite.merge existing incoming headers).changed.contains path = true ↔
      ∃ field value, incoming.fields.find? field = some value ∧
        replaces (headers.has Headers.errorsReplaceCachedValues) (existing.fields.find? field)
          value = true ∧ path = existing.key.fieldPath field := by
  have hchanged : (overwrite.merge existing incoming headers).changed = .ofList _ := rfl
  rw [hchanged, SortedSet.contains_ofList, decide_eq_true_iff, List.mem_map]
  refine exists_congr fun field => ?_
  rw [SortedMap.mem_keys]
  simp only [SortedMap.find?_filter, Option.filter_eq_some_iff, eq_comm (a := path),
    ← and_assoc, exists_and_right]

theorem contains_changed_byField (merge : FieldMerger) :
    ((byField merge).merge existing incoming headers).changed.contains path = true ↔
      ∃ field value, incoming.fields.find? field = some value ∧
        isChanged existing field (mergeField merge existing incoming field value) = true ∧
        path = existing.key.fieldPath field := by
  have hchanged : ((byField merge).merge existing incoming headers).changed = .ofList _ := rfl
  rw [hchanged, SortedSet.contains_ofList, decide_eq_true_iff, List.mem_map]
  constructor
  · rintro ⟨result, hresult, rfl⟩
    obtain ⟨hmem, hdiffers⟩ := List.mem_filter.1 hresult
    obtain ⟨entry, hentry, rfl⟩ := List.mem_map.1 hmem
    exact ⟨entry.1, entry.2, SortedMap.find?_eq_some_iff_mem.2 hentry, hdiffers, rfl⟩
  · rintro ⟨field, value, hfind, hdiffers, rfl⟩
    exact ⟨(field, mergeField merge existing incoming field value), List.mem_filter.2
      ⟨List.mem_map.2 ⟨(field, value), SortedMap.find?_eq_some_iff_mem.1 hfind, rfl⟩, hdiffers⟩,
      rfl⟩

/-- A field that held no floating-point number, and is to hold another value, counts as changed. -/
theorem isChanged_of_ne {result : FieldInfo}
    (hold : ∀ old, existing.fields.find? field = some old → old.HasShape .exact)
    (hne : existing.fields.find? field ≠ some result.value) :
    isChanged existing field result = true := by
  rw [isChanged]
  cases hfound : existing.fields.find? field with
  | none => rfl
  | some old =>
    have hdiffers : old ≠ result.value := fun hsame => hne (hfound.trans (congrArg some hsame))
    have hequals : old.equals result.value = false :=
      Bool.eq_false_iff.2 (mt (hold old hfound).equals_iff.1 hdiffers)
    dsimp only
    rw [hequals]
    rfl

/-- A field that held no floating-point number, and holds another value now, is told. -/
theorem ByFields.changed_of_ne (hmerger : merger.ByFields)
    (hold : ∀ old, existing.fields.find? field = some old → old.HasShape .exact)
    (hne : (merger.merge existing incoming headers).record.fields.find? field ≠
      existing.fields.find? field) :
    (merger.merge existing incoming headers).changed.contains (existing.key.fieldPath field) =
      true := by
  cases hmerger with
  | overwrite =>
    rw [find?_fields_overwrite] at hne
    cases hfind : incoming.fields.find? field with
    | none =>
      rw [hfind] at hne
      exact absurd rfl hne
    | some value =>
      refine contains_changed_overwrite.2 ⟨field, value, hfind, ?_, rfl⟩
      by_contra hkept
      rw [hfind, Option.filter_some, if_neg hkept] at hne
      exact hne rfl
  | byField merge =>
    rw [find?_fields_byField] at hne
    cases hfind : incoming.fields.find? field with
    | none =>
      rw [hfind] at hne
      exact absurd rfl hne
    | some value =>
      rw [hfind] at hne
      exact (contains_changed_byField merge).2
        ⟨field, value, hfind, isChanged_of_ne hold (Ne.symm hne), rfl⟩

/-- Only fields of the incoming record are told. -/
theorem ByFields.fieldPaths_of_changed (hmerger : merger.ByFields)
    (hkey : existing.key = incoming.key)
    (h : (merger.merge existing incoming headers).changed.contains path = true) :
    incoming.fieldPaths.contains path = true := by
  have hfound : ∃ field value, incoming.fields.find? field = some value ∧
      path = existing.key.fieldPath field := by
    cases hmerger with
    | overwrite =>
      obtain ⟨field, value, hfind, -, hpath⟩ := contains_changed_overwrite.1 h
      exact ⟨field, value, hfind, hpath⟩
    | byField merge =>
      obtain ⟨field, value, hfind, -, hpath⟩ := (contains_changed_byField merge).1 h
      exact ⟨field, value, hfind, hpath⟩
  obtain ⟨field, value, hfind, hpath⟩ := hfound
  exact Record.contains_fieldPaths.2
    ⟨field, SortedMap.contains_iff.2 ⟨value, hfind⟩, hkey ▸ hpath⟩

/-- A field that the plain merger tells holds the incoming value, and held another one. -/
theorem ne_of_changed (hincoming : incoming.fields.All (Value.HasShape .exact))
    (h : (overwrite.merge existing incoming headers).changed.contains path = true) :
    ∃ field value, path = existing.key.fieldPath field ∧
      incoming.fields.find? field = some value ∧
      (overwrite.merge existing incoming headers).record.fields.find? field = some value ∧
      existing.fields.find? field ≠ some value := by
  obtain ⟨field, value, hfind, hreplaces, hpath⟩ := contains_changed_overwrite.1 h
  refine ⟨field, value, hpath, hfind, ?_, fun hsame => ?_⟩
  · rw [find?_fields_overwrite, hfind, Option.filter_some, if_pos hreplaces]
    rfl
  · rw [hsame, replaces, (hincoming field value hfind).equals_iff.2 rfl] at hreplaces
    cases hreplaces

end Merger

/-! ### A batch -/

namespace Contents

variable {headers : Headers} {merger : Merger} {result next last : NameSet × Contents}
  {incoming : Record} {records : List Record}

/-- The value stored in a field of the record under a key. -/
def valueAt (c : Contents) (key : Key) (field : String) : Option Value :=
  (c.find? key).bind fun r => r.fields.find? field

theorem valueAt_congr {c c' : Contents} {key : Key} (h : c'.find? key = c.find? key)
    (field : String) : c'.valueAt key field = c.valueAt key field := by
  rw [valueAt, h, valueAt]

theorem valueAt_insert (c : Contents) (r : Record) (key : Key) (field : String) :
    valueAt (c.insert r.key r) key field =
      if key = r.key then r.fields.find? field else c.valueAt key field := by
  rw [valueAt, SortedMap.find?_insert_eq]
  split <;> rfl

/-- One record is merged; a merged record without fields may be left unwritten. -/
inductive Merging (headers : Headers) (merger : Merger) (result : NameSet × Contents)
    (incoming : Record) : NameSet × Contents → Prop
  | put : Merging headers merger result incoming (mergeOne headers merger result incoming)
  | skip {existing : Record} : result.2.find? incoming.key = some existing →
    (merger.merge existing incoming headers).record.isEmpty = true →
    Merging headers merger result incoming
      ((mergeOne headers merger result incoming).1, result.2)

/-- The records of a batch are merged one after the other. -/
inductive Batched (headers : Headers) (merger : Merger) :
    List Record → NameSet × Contents → NameSet × Contents → Prop
  | nil (result : NameSet × Contents) : Batched headers merger [] result result
  | cons {incoming : Record} {records : List Record} {result next last : NameSet × Contents} :
    Merging headers merger result incoming next → Batched headers merger records next last →
    Batched headers merger (incoming :: records) result last

/-- This is how contents are merged. -/
theorem batched_foldl (headers : Headers) (merger : Merger) (records : List Record)
    (result : NameSet × Contents) :
    Batched headers merger records result (records.foldl (mergeOne headers merger) result) := by
  induction records generalizing result with
  | nil => exact .nil result
  | cons incoming records ih => exact .cons .put (ih _)

/-- From one result to a later one no path is lost, and a field that held no floating-point number
changes only if its path is told. -/
structure Tells (before after : NameSet × Contents) : Prop where
  kept : ∀ path, before.1.contains path = true → after.1.contains path = true
  changed : ∀ key field, (∀ old, before.2.valueAt key field = some old → old.HasShape .exact) →
    after.2.valueAt key field ≠ before.2.valueAt key field →
      after.1.contains (key.fieldPath field) = true

theorem Tells.refl (result : NameSet × Contents) : Tells result result :=
  ⟨fun _ h => h, fun _ _ _ hne => absurd rfl hne⟩

theorem Tells.trans (h : Tells result next) (h' : Tells next last) : Tells result last where
  kept path hpath := h'.kept path (h.kept path hpath)
  changed key field hold hne := by
    by_cases hsame : next.2.valueAt key field = result.2.valueAt key field
    · exact h'.changed key field (hsame ▸ hold) (hsame ▸ hne)
    · exact h'.kept _ (h.changed key field hold hsame)

theorem keyed_mergeOne (hkeyed : Batch.Keyed result.2) :
    Batch.Keyed (mergeOne headers merger result incoming).2 := by
  rw [mergeOne]
  split
  · exact hkeyed.insert incoming
  · exact hkeyed.insert _

theorem Merging.keyed (h : Merging headers merger result incoming next)
    (hkeyed : Batch.Keyed result.2) : Batch.Keyed next.2 := by
  cases h with
  | put => exact keyed_mergeOne hkeyed
  | skip _ _ => exact hkeyed

section Step

variable (hmerger : merger.ByFields) (hkeyed : Batch.Keyed result.2)

include hmerger hkeyed

/-- Other keys are left alone. -/
theorem find?_mergeOne {key : Key} (hkey : key ≠ incoming.key) :
    (mergeOne headers merger result incoming).2.find? key = result.2.find? key := by
  rw [mergeOne]
  cases hfind : result.2.find? incoming.key with
  | none => exact (SortedMap.find?_insert_eq _ _ _ _).trans (if_neg hkey)
  | some existing =>
    refine (SortedMap.find?_insert_eq _ _ _ _).trans (if_neg ?_)
    rwa [hmerger.key_merge, hkeyed incoming.key existing hfind]

theorem tells_mergeOne : Tells result (mergeOne headers merger result incoming) := by
  have hunion (paths told : NameSet) {path : String} (h : paths.contains path = true ∨
      told.contains path = true) : (paths ∪ told).contains path = true := by
    rw [SortedSet.contains_union, Bool.or_eq_true]
    exact h
  rw [mergeOne]
  cases hfind : result.2.find? incoming.key with
  | none =>
    refine ⟨fun path h => hunion _ _ (.inl h), fun key field _ hne => hunion _ _ (.inr ?_)⟩
    rw [valueAt_insert] at hne
    split at hne
    · rename_i hkey
      have hnone : result.2.valueAt key field = none := by rw [valueAt, hkey, hfind]; rfl
      rw [hnone, Option.ne_none_iff_isSome] at hne
      exact Record.contains_fieldPaths.2 ⟨field, hne, congrArg (Key.fieldPath · field) hkey⟩
    · exact absurd rfl hne
  | some existing =>
    have hexisting := hkeyed incoming.key existing hfind
    refine ⟨fun path h => hunion _ _ (.inl h), fun key field hold hne => hunion _ _ (.inr ?_)⟩
    rw [valueAt_insert, hmerger.key_merge] at hne
    split at hne
    · rename_i hkey
      have hvalue : result.2.valueAt key field = existing.fields.find? field := by
        rw [valueAt, hkey, hexisting, hfind]
        rfl
      rw [hvalue] at hold hne
      rw [hkey]
      exact hmerger.changed_of_ne hold hne
    · exact absurd rfl hne

/-- What is told is told of the incoming record. -/
theorem fieldPaths_of_mergeOne {path : String}
    (h : (mergeOne headers merger result incoming).1.contains path = true) :
    result.1.contains path = true ∨ incoming.fieldPaths.contains path = true := by
  rw [mergeOne] at h
  cases hfind : result.2.find? incoming.key with
  | none =>
    rw [hfind, SortedSet.contains_union, Bool.or_eq_true] at h
    exact h
  | some existing =>
    rw [hfind, SortedSet.contains_union, Bool.or_eq_true] at h
    exact h.imp_right (hmerger.fieldPaths_of_changed (hkeyed incoming.key existing hfind))

/-- A record left unwritten would not have changed a field. -/
theorem valueAt_mergeOne {existing : Record} (hfind : result.2.find? incoming.key = some existing)
    (hempty : (merger.merge existing incoming headers).record.isEmpty = true) (key : Key)
    (field : String) :
    (mergeOne headers merger result incoming).2.valueAt key field =
      result.2.valueAt key field := by
  by_cases hkey : key = incoming.key
  · have hmerged : (merger.merge existing incoming headers).record.fields.find? field = none :=
      SortedMap.isEmpty_iff.1 hempty field
    have hexisting : existing.fields.find? field = none := by
      rw [← Option.not_isSome_iff_eq_none]
      intro hfield
      have hkept : (merger.merge existing incoming headers).record.fields.contains field = true :=
        hmerger.hasField_merge hfield
      rw [SortedMap.contains, hmerged] at hkept
      cases hkept
    have hput : (mergeOne headers merger result incoming).2 =
        result.2.insert (merger.merge existing incoming headers).record.key
          (merger.merge existing incoming headers).record := by
      rw [mergeOne, hfind]
    rw [hput, valueAt_insert, hmerger.key_merge, hkeyed incoming.key existing hfind,
      if_pos hkey, hmerged, valueAt, hkey, hfind]
    exact hexisting.symm
  · exact valueAt_congr (find?_mergeOne hmerger hkeyed hkey) field

theorem Merging.find? (h : Merging headers merger result incoming next) {key : Key}
    (hkey : key ≠ incoming.key) : next.2.find? key = result.2.find? key := by
  cases h with
  | put => exact find?_mergeOne hmerger hkeyed hkey
  | skip _ _ => rfl

theorem Merging.tells (h : Merging headers merger result incoming next) :
    Tells result next := by
  have hput : Tells result (mergeOne headers merger result incoming) :=
    tells_mergeOne hmerger hkeyed
  cases h with
  | put => exact hput
  | skip _ _ => exact ⟨hput.kept, fun _ _ _ hne => absurd rfl hne⟩

theorem Merging.fieldPaths (h : Merging headers merger result incoming next) {path : String}
    (hpath : next.1.contains path = true) :
    result.1.contains path = true ∨ incoming.fieldPaths.contains path = true := by
  cases h with
  | put => exact fieldPaths_of_mergeOne hmerger hkeyed hpath
  | skip _ _ => exact fieldPaths_of_mergeOne hmerger hkeyed hpath

/-- By induction on the batch. -/
theorem Batched.tells (h : Batched headers merger records result last) : Tells result last := by
  induction h with
  | nil result => exact .refl result
  | cons hfirst _ ih =>
    exact (hfirst.tells hmerger hkeyed).trans (ih (hfirst.keyed hkeyed))

theorem Batched.find? (h : Batched headers merger records result last) {key : Key}
    (hkey : key ∉ records.map Record.key) : last.2.find? key = result.2.find? key := by
  induction h with
  | nil result => rfl
  | cons hfirst _ ih =>
    obtain ⟨hincoming, hrest⟩ := not_or.1 (mt List.mem_cons.2 hkey)
    rw [ih (hfirst.keyed hkeyed) hrest, hfirst.find? hmerger hkeyed hincoming]

theorem Batched.fieldPaths (h : Batched headers merger records result last) {path : String}
    (hpath : last.1.contains path = true) :
    result.1.contains path = true ∨ ∃ r ∈ records, r.fieldPaths.contains path = true := by
  induction h with
  | nil result => exact .inl hpath
  | cons hfirst _ ih =>
    rename_i incoming records _ _ _ _
    rcases ih (hfirst.keyed hkeyed) hpath with hbefore | ⟨r, hr, hmore⟩
    · exact (hfirst.fieldPaths hmerger hkeyed hbefore).imp_right
        fun hpath => ⟨incoming, List.mem_cons_self, hpath⟩
    · exact .inr ⟨r, List.mem_cons_of_mem incoming hr, hmore⟩

end Step

section Plain

variable (hkeyed : Batch.Keyed result.2)

include hkeyed

/-- What the plain merger tells of a record holds the incoming value, and held another. -/
theorem Merging.ne_of_told (h : Merging headers .overwrite result incoming next)
    (hincoming : incoming.fields.All (Value.HasShape .exact)) {path : String}
    (hpath : next.1.contains path = true) :
    result.1.contains path = true ∨ ∃ field value, path = incoming.key.fieldPath field ∧
      incoming.fields.find? field = some value ∧
      next.2.valueAt incoming.key field = some value ∧
      result.2.valueAt incoming.key field ≠ some value := by
  have hput {path : String}
      (hpath : (mergeOne headers .overwrite result incoming).1.contains path = true) :
      result.1.contains path = true ∨ ∃ field value, path = incoming.key.fieldPath field ∧
        incoming.fields.find? field = some value ∧
        (mergeOne headers .overwrite result incoming).2.valueAt incoming.key field = some value ∧
        result.2.valueAt incoming.key field ≠ some value := by
    rw [mergeOne] at hpath ⊢
    cases hfind : result.2.find? incoming.key with
    | none =>
      rw [hfind, SortedSet.contains_union, Bool.or_eq_true] at hpath
      refine hpath.imp_right fun hpath => ?_
      obtain ⟨field, hfield, rfl⟩ := Record.contains_fieldPaths.1 hpath
      obtain ⟨value, hvalue⟩ := SortedMap.contains_iff.1 hfield
      refine ⟨field, value, rfl, hvalue, ?_, ?_⟩
      · exact (valueAt_insert _ _ _ _).trans ((if_pos rfl).trans hvalue)
      · rw [valueAt, hfind]
        exact Option.some_ne_none value ∘ Eq.symm
    | some existing =>
      have hkey := hkeyed incoming.key existing hfind
      rw [hfind, SortedSet.contains_union, Bool.or_eq_true] at hpath
      refine hpath.imp_right fun hpath => ?_
      obtain ⟨field, value, hpath, hvalue, hmerged, hdiffers⟩ :=
        Merger.ne_of_changed hincoming hpath
      refine ⟨field, value, hkey ▸ hpath, hvalue, ?_, ?_⟩
      · exact (valueAt_insert _ _ _ _).trans ((if_pos hkey.symm).trans hmerged)
      · rwa [valueAt, hfind]
  cases h with
  | put => exact hput hpath
  | skip hfind hempty =>
    rcases hput hpath with hbefore | ⟨field, value, rfl, hvalue, hafter, hdiffers⟩
    · exact .inl hbefore
    · rw [valueAt_mergeOne .overwrite hkeyed hfind hempty] at hafter
      exact absurd hafter hdiffers

/-- By induction on a batch of distinct keys: what was told of a key stays, as the rest of the batch
leaves this key alone. -/
theorem Batched.ne_of_told (h : Batched headers .overwrite records result last)
    (hdistinct : (records.map Record.key).Nodup)
    (hrecords : ∀ r ∈ records, r.fields.All (Value.HasShape .exact)) {path : String}
    (hpath : last.1.contains path = true) :
    result.1.contains path = true ∨ ∃ r ∈ records, ∃ field value,
      path = r.key.fieldPath field ∧ r.fields.find? field = some value ∧
      last.2.valueAt r.key field = some value ∧ result.2.valueAt r.key field ≠ some value := by
  induction h with
  | nil result => exact .inl hpath
  | cons hfirst hrest ih =>
    rename_i incoming records result next last
    obtain ⟨hfresh, hdistinct⟩ := List.nodup_cons.1 hdistinct
    obtain ⟨hincoming, hrecords⟩ := List.forall_mem_cons.1 hrecords
    have hnext := hfirst.keyed hkeyed
    rcases ih hnext hdistinct hrecords hpath with hbefore | ⟨r, hr, field, value, hmore⟩
    · refine (hfirst.ne_of_told hkeyed hincoming hbefore).imp_right ?_
      rintro ⟨field, value, hpath, hvalue, hafter, hdiffers⟩
      refine ⟨incoming, List.mem_cons_self, field, value, hpath, hvalue, ?_, hdiffers⟩
      rw [valueAt_congr (hrest.find? .overwrite hnext hfresh)]
      exact hafter
    · obtain ⟨hpath, hvalue, hafter, hdiffers⟩ := hmore
      have hother : r.key ≠ incoming.key := fun hsame => hfresh (hsame ▸ List.mem_map_of_mem hr)
      rw [valueAt_congr (hfirst.find? .overwrite hkeyed hother)] at hdiffers
      exact .inr ⟨r, List.mem_cons_of_mem incoming hr, field, value, hpath, hvalue, hafter,
        hdiffers⟩

end Plain

/-! ### The whole call -/

/-- A field that holds another value than before is told, and all that is told are fields of the
batch. -/
structure Told (records : List Record) (paths : NameSet) (before after : Contents) : Prop where
  changed : ∀ key field, after.valueAt key field ≠ before.valueAt key field →
    paths.contains (key.fieldPath field) = true
  named : ∀ path, paths.contains path = true →
    ∃ r ∈ records, ∃ field, r.fields.contains field = true ∧ path = r.key.fieldPath field

/-- All that is told are fields of the batch that hold another value than before. -/
def ToldOnly (records : List Record) (paths : NameSet) (before after : Contents) : Prop :=
  ∀ path, paths.contains path = true → ∃ r ∈ records, ∃ field, r.fields.contains field = true ∧
    path = r.key.fieldPath field ∧ after.valueAt r.key field ≠ before.valueAt r.key field

theorem told_unchanged (records : List Record) (c : Contents) : Told records ∅ c c :=
  ⟨fun _ _ hne => absurd rfl hne, fun _ hpath => absurd hpath Bool.false_ne_true⟩

theorem toldOnly_nothing (records : List Record) (before after : Contents) :
    ToldOnly records ∅ before after :=
  fun _ hpath => absurd hpath Bool.false_ne_true

section Call

variable {c : Contents} {trackDates : Bool}
  (h : Batched headers merger (records.map (Record.stamped trackDates headers)) (∅, c) last)
  (hkeyed : Batch.Keyed c)

include h hkeyed

theorem Batched.told (hmerger : merger.ByFields) (hexact : ∀ r ∈ records, ∀ stored,
      c.find? r.key = some stored → stored.fields.All (Value.HasShape .exact)) :
    Told records last.1 c last.2 := by
  constructor
  · intro key field hne
    refine (h.tells hmerger hkeyed).changed key field (fun old hold => ?_) hne
    by_cases hkey : key ∈ records.map Record.key
    · obtain ⟨r, hr, rfl⟩ := List.mem_map.1 hkey
      obtain ⟨stored, hstored, hfield⟩ := Option.bind_eq_some_iff.1 hold
      exact hexact r hr stored hstored field old hfield
    · rw [← Record.keys_stamped trackDates headers] at hkey
      exact absurd (valueAt_congr (h.find? hmerger hkeyed hkey) field) hne
  · intro path hpath
    rcases h.fieldPaths hmerger hkeyed hpath with hnone | ⟨stamped, hstamped, hfound⟩
    · cases hnone
    · obtain ⟨r, hr, rfl⟩ := List.mem_map.1 hstamped
      obtain ⟨field, hfield, rfl⟩ := Record.contains_fieldPaths.1 hfound
      rw [Record.fields_stamped] at hfield
      rw [Record.key_stamped]
      exact ⟨r, hr, field, hfield, rfl⟩

/-- A batch of distinct keys tells of a field that it holds the incoming value, and held another. -/
theorem Batched.ne_of_call (hmerger : merger = .overwrite)
    (hdistinct : (records.map Record.key).Nodup)
    (hrecords : ∀ r ∈ records, r.fields.All (Value.HasShape .exact)) {path : String}
    (hpath : last.1.contains path = true) :
    ∃ r ∈ records, ∃ field value, r.fields.find? field = some value ∧
      path = r.key.fieldPath field ∧ last.2.valueAt r.key field = some value ∧
      c.valueAt r.key field ≠ some value := by
  subst hmerger
  have hincoming : ∀ r ∈ records.map (Record.stamped trackDates headers),
      r.fields.All (Value.HasShape .exact) := by
    refine List.forall_mem_map.2 fun r hr => ?_
    rw [Record.fields_stamped]
    exact hrecords r hr
  rw [← Record.keys_stamped trackDates headers] at hdistinct
  rcases h.ne_of_told hkeyed hdistinct hincoming hpath with
    hnone | ⟨stamped, hstamped, field, value, hpath, hvalue, hafter, hdiffers⟩
  · cases hnone
  · obtain ⟨r, hr, rfl⟩ := List.mem_map.1 hstamped
    rw [Record.fields_stamped] at hvalue
    rw [Record.key_stamped] at hpath hafter hdiffers
    exact ⟨r, hr, field, value, hvalue, hpath, hafter, hdiffers⟩

end Call

end Contents
end RecordCache
