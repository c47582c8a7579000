import RecordCache.Proofs.Changes
import RecordCache.Proofs.Record.Overlay

/-!
# Records with nothing left to merge

A record that was merged once is not changed by merging it again: its fields are there already, or
were refused as errors, and so are its metadata entries, its type and its mutation identifier. This
outlives being written to a row and read back.

* `Record.Absorbs` says that a record has nothing left to take from another, and `Absorbs.merge_eq`
  that merging then changes nothing;
* `Record.absorbs_merge`, `absorbs_self`: what a merge leaves, and `Absorbs.reread` what is read
  back;
* `Contents.absorbed_merge`, `Contents.merge_absorbed`: a batch of distinct keys that was merged
  into contents, and merging it once more.
-/

namespace RecordCache

/-! ### Two records -/

/-- The record has nothing left to take from another. -/
structure Record.Absorbs (stored incoming : Record) (headers : Headers) : Prop where
  typeName : stored.typeName = incoming.typeName
  mutation : stored.mutation = incoming.mutation
  fields : ∀ field value, incoming.fields.find? field = some value →
    Merger.replaces (headers.has Headers.errorsReplaceCachedValues) (stored.fields.find? field)
      value = false
  metadata : ∀ field entries, incoming.metadata.find? field = some entries →
    ∃ held, stored.metadata.find? field = some held ∧
      ∀ name entry, entries.find? name = some entry → held.find? name = some entry

namespace Merger

variable {errorsReplace : Bool} {stored : Option Value} {value : Value}

/-- A value does not take its own place. -/
theorem replaces_self (hvalue : value.HasShape .exact) :
    replaces errorsReplace (some value) value = false := by
  have hequals : value.equals value = true := hvalue.equals_iff.2 rfl
  simp [replaces, hequals]

/-- A value that does not take the place of another does not take the place of what is read back of
it: reading back keeps an equal value as it is, and makes no errors. -/
theorem replaces_reread (hvalue : value.HasShape .exact)
    (h : replaces errorsReplace stored value = false) :
    replaces errorsReplace (stored.map Value.reread) value = false := by
  cases stored with
  | none => cases h
  | some old =>
    by_cases hequals : old.equals value = true
    · rw [hvalue.eq_of_equals hequals, Option.map_some, hvalue.reread_eq]
      exact replaces_self hvalue
    · have hrefused : (!value.isError || old.isError || errorsReplace) = false := by
        simpa [replaces, hequals] using h
      have herror : old.reread.isError = old.isError := by cases old <;> rfl
      simp [replaces, herror, hrefused]

end Merger

namespace Record

variable {stored incoming : Record} {headers : Headers}

/-- Merging it changes nothing. -/
theorem Absorbs.merge_eq (h : stored.Absorbs incoming headers) :
    Merger.overwrite.merge stored incoming headers = ⟨stored, ∅⟩ := by
  have haccepted : (incoming.fields.filter fun field value =>
      Merger.replaces (headers.has Headers.errorsReplaceCachedValues) (stored.fields.find? field)
        value) = ∅ := by
    refine SortedMap.ext fun field => ?_
    rw [SortedMap.find?_filter]
    cases hfind : incoming.fields.find? field with
    | none => rfl
    | some value =>
      rw [Option.filter_some, h.fields field value hfind]
      rfl
  have hmetadata : FieldMetadata.overlayAll stored.metadata incoming.metadata =
      stored.metadata := by
    refine SortedMap.ext fun field => ?_
    rw [FieldMetadata.find?_overlayAll]
    cases hfind : incoming.metadata.find? field with
    | none => rfl
    | some entries =>
      obtain ⟨held, hheld, hentries⟩ := h.metadata field entries hfind
      rw [hheld]
      exact congrArg some (SortedMap.overlay_eq_self hentries)
  have hfields : stored.fields.overlay ∅ = stored.fields := rfl
  simp only [Merger.overwrite, haccepted, hmetadata, hfields, ← h.typeName, ← h.mutation]
  rfl

/-- A record has nothing to take from itself. -/
theorem absorbs_self (hexact : stored.fields.All (Value.HasShape .exact)) (headers : Headers) :
    stored.Absorbs stored headers where
  typeName := rfl
  mutation := rfl
  fields field value hfind := by
    rw [hfind]
    exact Merger.replaces_self (hexact field value hfind)
  metadata _ entries hfind := ⟨entries, hfind, fun _ _ hentry => hentry⟩

/-- A merged record has nothing left to take. -/
theorem absorbs_merge (stored : Record) (hexact : incoming.fields.All (Value.HasShape .exact)) :
    (Merger.overwrite.merge stored incoming headers).record.Absorbs incoming headers where
  typeName := rfl
  mutation := rfl
  fields field value hfind := by
    rw [Merger.find?_fields_overwrite, hfind, Option.filter_some]
    -- a field is taken over, or was refused and would be refused again
    split
    · exact Merger.replaces_self (hexact field value hfind)
    · rename_i hrefused
      exact Bool.eq_false_iff.2 hrefused
  metadata field entries hfind := by
    have hmerged : (Merger.overwrite.merge stored incoming headers).record.metadata =
      FieldMetadata.overlayAll stored.metadata incoming.metadata := rfl
    rw [hmerged, FieldMetadata.find?_overlayAll, hfind]
    refine ⟨_, rfl, fun name entry hentry => ?_⟩
    rw [SortedMap.find?_overlay, hentry]
    rfl

/-- So has what is read back of it. -/
theorem Absorbs.reread (h : stored.Absorbs incoming headers) (hexact : incoming.Exact) :
    stored.reread.Absorbs incoming headers where
  typeName := h.typeName
  mutation := h.mutation
  fields field value hfind := by
    have hreread : stored.reread.fields = stored.fields.mapValues Value.reread := rfl
    rw [hreread, SortedMap.find?_mapValues]
    exact Merger.replaces_reread ⟨_, hexact.fields field value hfind⟩ (h.fields field value hfind)
  metadata field entries hfind := by
    obtain ⟨held, hheld, hentries⟩ := h.metadata field entries hfind
    have hreread : stored.reread.metadata = stored.metadata.mapValues FieldMetadata.reread := rfl
    rw [hreread, SortedMap.find?_mapValues, hheld]
    refine ⟨held.reread, rfl, fun name entry hentry => ?_⟩
    have hentryExact := (hexact.metadata field entries hfind name entry hentry).1
    rw [FieldMetadata.reread, SortedMap.find?_mapValues, hentries name entry hentry]
    exact congrArg some hentryExact.reread_eq

end Record

/-! ### A batch -/

namespace Contents

variable {c : Contents} {headers : Headers} {records : List Record}

/-- A record that was merged is under its key, with nothing left to take. -/
theorem absorbed_mergeOne (hkeyed : Batch.Keyed c) (paths : NameSet) {r : Record}
    (hexact : r.fields.All (Value.HasShape .exact)) : ∃ stored,
      (mergeOne headers .overwrite (paths, c) r).2.find? r.key = some stored ∧
      stored.Absorbs r headers := by
  rw [mergeOne]
  cases hfind : c.find? r.key with
  | none => exact ⟨r, SortedMap.find?_insert_self _ _ _, Record.absorbs_self hexact headers⟩
  | some existing =>
    have hkey : (Merger.overwrite.merge existing r headers).record.key = r.key :=
      hkeyed r.key existing hfind
    refine ⟨_, ?_, Record.absorbs_merge existing hexact⟩
    dsimp only
    rw [hkey]
    exact SortedMap.find?_insert_self _ _ _

/-- So are all records of a batch, if their keys are distinct. -/
theorem absorbed_merge (hkeyed : Batch.Keyed c) (hdistinct : (records.map Record.key).Nodup)
    (hexact : ∀ r ∈ records, r.fields.All (Value.HasShape .exact)) : ∀ r ∈ records, ∃ stored,
      (c.merge headers .overwrite records).2.find? r.key = some stored ∧
      stored.Absorbs r headers := by
  exact Batch.foldl_distinct (mergeOne headers .overwrite) (fun result => result.2.find?)
    (fun result => Batch.Keyed result.2)
    (fun found r => ∃ stored, found = some stored ∧ stored.Absorbs r headers)
    (fun _ _ hresult => keyed_mergeOne hresult)
    (fun result r hr hresult => absorbed_mergeOne hresult result.1 (hexact r hr))
    (fun _ _ _ hresult hkey => find?_mergeOne .overwrite hresult hkey) hdistinct hkeyed

/-- Merging such a batch once more changes nothing. -/
theorem merge_absorbed (hkeyed : Batch.Keyed c) (h : ∀ r ∈ records, ∃ stored,
      c.find? r.key = some stored ∧ stored.Absorbs r headers) :
    c.merge headers .overwrite records = (∅, c) := by
  have hstep : ∀ r ∈ records, mergeOne headers .overwrite (∅, c) r = (∅, c) := by
    intro r hr
    obtain ⟨stored, hstored, habsorbs⟩ := h r hr
    have hsame : c.insert stored.key stored = c := SortedMap.ext fun key => by
      rw [SortedMap.find?_insert_eq, hkeyed r.key stored hstored]
      split
      · rename_i hkey
        rw [hkey, hstored]
      · rfl
    rw [mergeOne, hstored]
    dsimp only
    rw [habsorbs.merge_eq, hsame]
    rfl
  rw [merge]
  exact List.foldlRecOn (motive := fun result => result = (∅, c)) records _ rfl
    fun result hresult r hr => by rw [hresult, hstep r hr]

end Contents
end RecordCache
