import RecordCache.Merge.Connection
import RecordCache.Merge.Window
import RecordCache.Proofs.SortedMap
import RecordCache.Proofs.Value.Shape
import RecordCache.Record.Dates

/-!
# What merging keeps

A merged record is put together from the values and the metadata entries of the two records, with a
few integers and cursors added. What holds of all values and of all entries therefore holds of the
merged record too.

* `Record.All` says that all values and all metadata entries of a record have a property;
* `Merger.ByFields` are the mergers that combine records field by field, and `Merger.fieldwise` the
  four of them that are in use;
* `Merger.all_merge`: one of these keeps the shape of the values;
* `Merger.find?_fields_byField`, `metadataOf_byField`, `find?_fields_overwrite`,
  `metadataOf_overwrite`: what becomes of a field;
* `Merger.ByFields.hasField_merge`: every field that was there is kept;
* `Merger.fields_overwrite`: incoming fields win.
-/

namespace RecordCache

/-- All values have one property, and all metadata entries have another. -/
structure Record.All (P : Value → Prop) (Q : Json → Prop) (r : Record) : Prop where
  fields : r.fields.All P
  metadata : r.metadata.All (SortedMap.All Q)

/-- The value and its metadata entries have the properties. -/
structure FieldInfo.All (P : Value → Prop) (Q : Json → Prop) (info : FieldInfo) : Prop where
  value : P info.value
  metadata : info.metadata.All Q

/-- Metadata laid over stored ones, field by field. -/
theorem FieldMetadata.find?_overlayAll (stored top : SortedMap String FieldMetadata)
    (field : String) : (overlayAll stored top).find? field =
      ((top.find? field).map fun entries => ((stored.find? field).getD ∅).overlay entries).or
        (stored.find? field) :=
  SortedMap.find?_foldl_entries
    (fun _ (entries : FieldMetadata) (held : Option FieldMetadata) => (held.getD ∅).overlay entries)
    top stored field

theorem FieldMetadata.int64?_of_find? {metadata : FieldMetadata} {name : String} {n : Int64}
    (h : metadata.find? name = some (.ofInt64 n)) : metadata.int64? name = some n := by
  rw [int64?, h]
  exact Json.Integer.int64?_ofInt64 n

/-- Without floating-point numbers, equality is having the same entries. -/
theorem FieldMetadata.equals_iff {a b : FieldMetadata} (h : a.All Json.IsExact) :
    a.equals b = true ↔ a = b := by
  rw [equals, Json.equalMembers_iff fun entry hentry _ => (h.of_mem hentry).equals_iff]
  exact ⟨SortedMap.entries_injective, congrArg SortedMap.entries⟩

section All

variable {P : Value → Prop} {Q : Json → Prop} {existing incoming r : Record} {headers : Headers}

theorem FieldMetadata.all_overlayAll {stored top : SortedMap String FieldMetadata}
    (hstored : stored.All (SortedMap.All Q)) (htop : top.All (SortedMap.All Q)) :
    (overlayAll stored top).All (SortedMap.All Q) := by
  refine List.foldlRecOn top.entries _ hstored fun metadata hmetadata entry hentry => ?_
  have hheld : ((metadata.find? entry.1).getD ∅).All Q := hmetadata.getD SortedMap.all_empty
  exact hmetadata.insert (hheld.overlay (htop.of_mem hentry))

namespace Record

theorem All.metadataOf (h : r.All P Q) (field : String) : (r.metadataOf field).All Q :=
  h.metadata.getD SortedMap.all_empty

/-- Dates are integers. -/
theorem All.stamped (hint : ∀ n, Q (.ofInt64 n)) {trackDates : Bool} (h : r.All P Q) :
    (r.stamped trackDates headers).All P Q := by
  have hdate : ∀ {metadata : FieldMetadata} {name : String} (date : Option Int64),
      metadata.All Q → (metadata.withDate name date).All Q := by
    intro metadata name date hmetadata
    cases date with
    | none => exact hmetadata
    | some date => exact hmetadata.insert (hint date)
  rw [Record.stamped]
  split
  · rw [withDates]
    split
    · exact h
    · refine ⟨h.fields, ?_⟩
      refine List.foldlRecOn r.fields.keys _ h.metadata fun metadata hmetadata field _ => ?_
      exact hmetadata.insert (hdate _ (hdate _ (hmetadata.getD SortedMap.all_empty)))
  · exact h

theorem key_stamped (trackDates : Bool) (headers : Headers) (r : Record) :
    (r.stamped trackDates headers).key = r.key := by
  rw [stamped, withDates]
  split
  · split <;> rfl
  · rfl

theorem keys_stamped (trackDates : Bool) (headers : Headers) (records : List Record) :
    (records.map (stamped trackDates headers)).map Record.key = records.map Record.key := by
  rw [List.map_map]
  exact List.map_congr_left fun r _ => key_stamped _ _ r

theorem key_stamped_mem {records : List Record} {r : Record} (hr : r ∈ records)
    (trackDates : Bool) (headers : Headers) :
    (r.stamped trackDates headers).key ∈ records.map Record.key := by
  rw [key_stamped]
  exact List.mem_map_of_mem hr

theorem fields_stamped (trackDates : Bool) (headers : Headers) (r : Record) :
    (r.stamped trackDates headers).fields = r.fields := by
  rw [stamped, withDates]
  split
  · split <;> rfl
  · rfl

end Record

namespace Merger

theorem all_overwrite (hexisting : existing.All P Q) (hincoming : incoming.All P Q) :
    (overwrite.merge existing incoming headers).record.All P Q :=
  ⟨hexisting.fields.overlay hincoming.fields.filter,
    FieldMetadata.all_overlayAll hexisting.metadata hincoming.metadata⟩

/-- What a field merger keeps of two versions of a field, it keeps of records. -/
theorem all_byField {merge : FieldMerger}
    (hmerge : ∀ old arriving : FieldInfo, old.All P Q → arriving.All P Q →
      (merge old arriving).All P Q)
    (hexisting : existing.All P Q) (hincoming : incoming.All P Q) :
    ((byField merge).merge existing incoming headers).record.All P Q := by
  have hfield : ∀ entry ∈ incoming.fields.entries,
      (mergeField merge existing incoming entry.1 entry.2).All P Q := by
    intro entry hentry
    have harriving : FieldInfo.All P Q ⟨entry.2, incoming.metadataOf entry.1⟩ :=
      ⟨hincoming.fields.of_mem hentry, hincoming.metadataOf _⟩
    rw [mergeField]
    cases hold : existing.fields.find? entry.1 with
    | none => exact ⟨harriving.value, (hexisting.metadataOf _).overlay harriving.metadata⟩
    | some old =>
      have hboth := hmerge ⟨old, existing.metadataOf entry.1⟩ _
        ⟨hexisting.fields _ _ hold, hexisting.metadataOf _⟩ harriving
      exact ⟨hboth.value, (hexisting.metadataOf _).overlay hboth.metadata⟩
  have hresult : ∀ result ∈ incoming.fields.entries.map fun entry =>
      (entry.1, mergeField merge existing incoming entry.1 entry.2), result.2.All P Q :=
    List.forall_mem_map.2 hfield
  constructor
  · exact List.foldlRecOn _ _ hexisting.fields fun fields hfields result hmem =>
      hfields.insert (hresult result hmem).value
  · exact List.foldlRecOn _ _ hexisting.metadata fun metadata hmetadata result hmem =>
      hmetadata.insert (hresult result (List.mem_filter.1 hmem).1).metadata

end Merger
end All

section Shapes

variable {shape : Value.Shape} {Q : Json → Prop} {depth : Nat} {old arriving : FieldInfo}

theorem Merger.all_sumFields (harriving : arriving.All (Value.Within shape (depth + 4)) Q) :
    (sumFields old arriving).All (Value.Within shape (depth + 4)) Q := by
  rw [sumFields]
  split
  · exact ⟨.int _, SortedMap.all_empty⟩
  · exact harriving

namespace Window

theorem mem_of_itemAt? {items : List Value} {first : Int64} {position : Int} {item : Value}
    (h : itemAt? items first position = some item) : item ∈ items := by
  rw [itemAt?] at h
  split at h
  · cases h
  · exact List.mem_of_getElem? h

/-- The union of two windows has only their items. -/
theorem mem_of_mem_splice {items newItems : List Value} {first newFirst : Int64} {item : Value}
    (h : item ∈ splice first items newFirst newItems) : item ∈ items ∨ item ∈ newItems := by
  obtain ⟨step, -, hitem⟩ := List.mem_filterMap.1 h
  dsimp only at hitem
  split at hitem
  · exact .inr (mem_of_itemAt? hitem)
  · exact .inl (mem_of_itemAt? hitem)

theorem all_merge (hint : ∀ n, Q (.ofInt64 n))
    (hold : old.All (Value.Within shape (depth + 4)) Q)
    (harriving : arriving.All (Value.Within shape (depth + 4)) Q) :
    (merge old arriving).All (Value.Within shape (depth + 4)) Q := by
  rw [merge]
  split
  · rename_i first newFirst items newItems _ _ hitems hnewItems
    split
    · exact harriving
    · refine ⟨?_, (hold.metadata.overlay harriving.metadata).insert (hint _)⟩
      have hall := hold.value
      have hnewAll := harriving.value
      rw [hitems] at hall
      rw [hnewItems] at hnewAll
      cases hall with
      | list hall =>
      cases hnewAll with
      | list hnewAll =>
      refine .list fun item hitem => ?_
      exact (mem_of_mem_splice hitem).elim (hall item) (hnewAll item)
  · exact harriving

end Window

namespace Connection

/-- The edges of a connection nest two levels less. -/
theorem within_edgesOf {connection : Members}
    (h : ∀ member ∈ connection, member.2.Within shape (depth + 2)) :
    ∀ item ∈ edgesOf connection, item.Within shape depth := by
  intro item hitem
  rw [edgesOf] at hitem
  cases hfound : Entries.find? edges connection with
  | none =>
    rw [hfound] at hitem
    cases hitem
  | some value =>
    have hvalue := h _ (Entries.mem_of_find? hfound)
    rw [hfound] at hitem
    cases hvalue with
    | list hitems => exact hitems item hitem
    | _ => cases hitem

/-- So do the entries of a page description. -/
theorem within_pageInfo {connection info : Members}
    (h : ∀ member ∈ connection, member.2.Within shape (depth + 2))
    (hinfo : pageInfo? connection = some info) :
    shape.members info ∧ ∀ member ∈ info, member.2.Within shape depth := by
  obtain ⟨value, hfound, hobject⟩ := Option.bind_eq_some_iff.1 hinfo
  have hvalue := h _ (Entries.mem_of_find? hfound)
  cases hvalue with
  | object hmembers hall =>
    cases hobject
    exact ⟨hmembers, hall⟩
  | _ => cases hobject

theorem within_object {members : Members}
    (h : shape.members members ∧ ∀ member ∈ members, member.2.Within shape depth) :
    (Value.object members).Within shape (depth + 2) := .object h.1 h.2

theorem within_insert (name : String) {value : Value} {members : Members}
    (h : shape.members members ∧ ∀ member ∈ members, member.2.Within shape depth)
    (hvalue : value.Within shape depth) :
    shape.members (Entries.insert name value members) ∧
      ∀ member ∈ Entries.insert name value members, member.2.Within shape depth := by
  refine ⟨shape.members_insert _ _ _ h.1, fun member hmember => ?_⟩
  rcases Entries.mem_insert hmember with rfl | hmember
  · exact hvalue
  · exact h.2 member hmember

theorem within_mergePageInfo {stretch page : Members} (names : List String)
    (hstretch : shape.members stretch ∧ ∀ member ∈ stretch, member.2.Within shape (depth + 2))
    (hpage : ∀ member ∈ page, member.2.Within shape (depth + 2)) :
    shape.members (mergePageInfo stretch page names) ∧
      ∀ member ∈ mergePageInfo stretch page names, member.2.Within shape (depth + 2) := by
  rw [mergePageInfo]
  cases hnew : pageInfo? page with
  | none => exact hstretch
  | some newInfo =>
    have hnewInfo := within_pageInfo hpage hnew
    have hstart : shape.members ((pageInfo? stretch).getD []) ∧
        ∀ member ∈ (pageInfo? stretch).getD [], member.2.Within shape depth := by
      cases hinfo : pageInfo? stretch with
      | none => exact ⟨shape.members_nil, List.forall_mem_nil _⟩
      | some info => exact within_pageInfo hstretch.2 hinfo
    refine within_insert pageInfo hstretch (within_object ?_)
    refine List.foldlRecOn (motive := fun info => shape.members info ∧
      ∀ member ∈ info, member.2.Within shape depth) names _ hstart fun info hinfo name _ => ?_
    cases hvalue : Entries.find? name newInfo with
    | none => exact hinfo
    | some value => exact within_insert name hinfo (hnewInfo.2 _ (Entries.mem_of_find? hvalue))

theorem all_merge (hstring : ∀ s, Q (.string s))
    (hold : old.All (Value.Within shape (depth + 4)) Q)
    (harriving : arriving.All (Value.Within shape (depth + 4)) Q) :
    (merge old arriving).All (Value.Within shape (depth + 4)) Q := by
  have hmetadata (first last : String) :
      (((((old.metadata.overlay arriving.metadata).erase before).erase after).insert startCursor
        (.string first)).insert endCursor (.string last)).All Q :=
    ((hold.metadata.overlay harriving.metadata).erase.erase.insert (hstring _)).insert (hstring _)
  rw [merge]
  split
  · exact harriving
  · split
    · split
      · split
        · rename_i stretch page hstretch hpage
          have hall := hold.value
          have hnewAll := harriving.value
          rw [hstretch] at hall
          rw [hpage] at hnewAll
          cases hall with
          | object hmembers hall =>
          cases hnewAll with
          | object hnewMembers hnewAll =>
          have hitems := within_edgesOf hall
          have hnewItems := within_edgesOf hnewAll
          -- The three places of the page: after the stretch, before it, and anywhere else.
          split
          · have hinfo := within_mergePageInfo endEntries ⟨hmembers, hall⟩ hnewAll
            have hjoined := within_insert edges hinfo
              (.list (List.forall_mem_append.2 ⟨hitems, hnewItems⟩))
            exact ⟨.object hjoined.1 hjoined.2, hmetadata _ _⟩
          · split
            · have hinfo := within_mergePageInfo startEntries ⟨hmembers, hall⟩ hnewAll
              have hjoined := within_insert edges hinfo
                (.list (List.forall_mem_append.2 ⟨hnewItems, hitems⟩))
              exact ⟨.object hjoined.1 hjoined.2, hmetadata _ _⟩
            · have hjoined := within_insert edges ⟨hnewMembers, hnewAll⟩
                (.list hnewItems)
              exact ⟨.object hjoined.1 hjoined.2, hmetadata _ _⟩
        · exact harriving
      · exact hold
    · exact harriving

end Connection

namespace Merger

/-- The mergers that combine records field by field: the plain one, and those that leave a field
present in both records to a function. -/
inductive ByFields : Merger → Prop
  | overwrite : ByFields overwrite
  | byField (merge : FieldMerger) : ByFields (byField merge)

/-- The mergers in use that combine records field by field. -/
def fieldwise : List Merger := [overwrite, window, connection, sum]

variable {existing incoming : Record} {headers : Headers} {merger : Merger}

theorem byFields_of_mem (hmerger : merger ∈ fieldwise) : merger.ByFields := by
  simp only [fieldwise, List.mem_cons, List.not_mem_nil, or_false] at hmerger
  rcases hmerger with rfl | rfl | rfl | rfl
  · exact .overwrite
  · exact .byField _
  · exact .byField _
  · exact .byField _

/-- A merger that combines records field by field keeps the shape of the values. -/
theorem all_merge (hmerger : merger ∈ fieldwise) (hint : ∀ n, Q (.ofInt64 n))
    (hstring : ∀ s, Q (.string s))
    (hexisting : existing.All (Value.Within shape (depth + 4)) Q)
    (hincoming : incoming.All (Value.Within shape (depth + 4)) Q) :
    (merger.merge existing incoming headers).record.All (Value.Within shape (depth + 4)) Q := by
  simp only [fieldwise, List.mem_cons, List.not_mem_nil, or_false] at hmerger
  rcases hmerger with rfl | rfl | rfl | rfl
  · exact all_overwrite hexisting hincoming
  · exact all_byField (fun _ _ => Window.all_merge hint) hexisting hincoming
  · exact all_byField (fun _ _ => Connection.all_merge hstring) hexisting hincoming
  · exact all_byField (fun _ _ _ => all_sumFields) hexisting hincoming

theorem ByFields.key_merge (hmerger : merger.ByFields) :
    (merger.merge existing incoming headers).record.key = existing.key := by
  cases hmerger <;> rfl

/-- What becomes of the fields of two records, when a function decides about those in both. -/
theorem find?_fields_byField (merge : FieldMerger) (field : String) :
    ((byField merge).merge existing incoming headers).record.fields.find? field =
      ((incoming.fields.find? field).map fun value =>
        (mergeField merge existing incoming field value).value).or
          (existing.fields.find? field) := by
  refine Eq.trans ?_ (SortedMap.find?_foldl_entries
    (fun field value _ => (mergeField merge existing incoming field value).value)
    incoming.fields existing.fields field)
  exact congrArg (SortedMap.find? · field) List.foldl_map

/-- What becomes of the metadata: those of a field that arrives are the merged ones, and empty ones
are not written. -/
theorem find?_metadata_byField (merge : FieldMerger) (field : String) :
    ((byField merge).merge existing incoming headers).record.metadata.find? field =
      ((((incoming.fields.find? field).map (mergeField merge existing incoming field)).filter
        fun result => !result.metadata.isEmpty).map FieldInfo.metadata).or
          (existing.metadata.find? field) := by
  let results : SortedMap String FieldInfo :=
    ⟨_, Entries.ascending_map_snd
      (fun entry => mergeField merge existing incoming entry.1 entry.2) incoming.fields.ascending⟩
  have hresults : results.find? field =
      (incoming.fields.find? field).map (mergeField merge existing incoming field) :=
    Entries.find?_map_entry (fun entry => mergeField merge existing incoming entry.1 entry.2)
      field incoming.fields.entries
  rw [← hresults, ← SortedMap.find?_filter (fun _ (result : FieldInfo) => !result.metadata.isEmpty)]
  exact SortedMap.find?_foldl_entries (fun _ (result : FieldInfo) _ => result.metadata)
    (results.filter fun _ result => !result.metadata.isEmpty) existing.metadata field

/-- Where empty metadata are not written, none can have been stored. -/
theorem metadataOf_byField (merge : FieldMerger) (field : String) :
    ((byField merge).merge existing incoming headers).record.metadataOf field =
      ((incoming.fields.find? field).map fun value =>
        (mergeField merge existing incoming field value).metadata).getD
          (existing.metadataOf field) := by
  rw [Record.metadataOf, find?_metadata_byField]
  cases hfind : incoming.fields.find? field with
  | none => rfl
  | some value =>
    rw [Option.map_some, Option.filter_some]
    split
    · rfl
    · rename_i hempty
      have hnone : (mergeField merge existing incoming field value).metadata.isEmpty = true := by
        simpa using hempty
      rw [SortedMap.isEmpty_iff] at hnone
      refine SortedMap.ext fun name => ?_
      have hstored := Option.or_eq_none_iff.1
        ((SortedMap.find?_overlay (existing.metadataOf field) _ name).symm.trans (hnone name))
      exact hstored.2.trans (hnone name).symm

/-- What becomes of the fields of two records, when incoming ones win. -/
theorem find?_fields_overwrite (field : String) :
    (overwrite.merge existing incoming headers).record.fields.find? field =
      ((incoming.fields.find? field).filter
        (replaces (headers.has Headers.errorsReplaceCachedValues)
          (existing.fields.find? field))).or (existing.fields.find? field) := by
  show (existing.fields.overlay _).find? field = _
  rw [SortedMap.find?_overlay, SortedMap.find?_filter]

/-- Metadata are laid over the stored ones, of whichever fields they are. -/
theorem metadataOf_overwrite (field : String) :
    (overwrite.merge existing incoming headers).record.metadataOf field =
      (existing.metadataOf field).overlay (incoming.metadataOf field) := by
  show ((FieldMetadata.overlayAll existing.metadata incoming.metadata).find? field).getD ∅ = _
  rw [FieldMetadata.find?_overlayAll, Record.metadataOf, Record.metadataOf]
  cases incoming.metadata.find? field <;> rfl

/-- A field that arrives is stored as it is merged. -/
theorem byField_arrives (merge : FieldMerger) {field : String} {value : Value}
    (hvalue : incoming.fields.find? field = some value) :
    let merged := ((byField merge).merge existing incoming headers).record
    let info := mergeField merge existing incoming field value
    merged.fields.find? field = some info.value ∧ merged.metadataOf field = info.metadata := by
  constructor
  · rw [find?_fields_byField, hvalue]
    rfl
  · rw [metadataOf_byField, hvalue]
    rfl

/-- No field is lost. -/
theorem ByFields.hasField_merge (hmerger : merger.ByFields) {field : String}
    (h : existing.fields.contains field = true) :
    (merger.merge existing incoming headers).record.fields.contains field = true := by
  cases hmerger with
  | overwrite =>
    rw [SortedMap.contains, find?_fields_overwrite, Option.isSome_or]
    exact Bool.or_eq_true_iff.2 (.inr h)
  | byField merge =>
    rw [SortedMap.contains, find?_fields_byField, Option.isSome_or]
    exact Bool.or_eq_true_iff.2 (.inr h)

/-- A value that may replace what is stored is there afterwards: one that is not accepted is the
one stored. -/
theorem accepted_or_stored {errorsReplace : Bool} {stored : Option Value} {value : Value}
    (hexact : value.HasShape .exact)
    (h : ∀ old, stored = some old → (!value.isError || old.isError || errorsReplace) = true) :
    ((some value).filter (replaces errorsReplace stored)).or stored = some value := by
  rw [Option.filter_some]
  split
  · rfl
  · rename_i hkept
    cases stored with
    | none => exact absurd rfl hkept
    | some old =>
      rw [replaces, h old rfl] at hkept
      have hequals : old.equals value = true := by simpa using hkept
      rw [hexact.eq_of_equals hequals]
      rfl

/-- Without floating-point numbers, and without errors unless they may replace values, every
incoming field wins. -/
theorem fields_overwrite (hexact : incoming.fields.All (Value.HasShape .exact))
    (herrors : headers.has Headers.errorsReplaceCachedValues = true ∨
      incoming.fields.All fun value => value.isError = false) :
    (overwrite.merge existing incoming headers).record.fields =
      existing.fields.overlay incoming.fields := by
  refine SortedMap.ext fun field => ?_
  rw [find?_fields_overwrite, SortedMap.find?_overlay]
  cases hfind : incoming.fields.find? field with
  | none => rfl
  | some value =>
    refine accepted_or_stored (hexact field value hfind) fun old _ => ?_
    rcases herrors with herrors | herrors
    · rw [herrors, Bool.or_true]
    · rw [herrors field value hfind]
      rfl

/-- What becomes of a record that is merged by itself, without headers. -/
def settled (current : Option Record) (r : Record) : Record :=
  current.elim r fun existing => (overwrite.merge existing r Headers.none).record

theorem key_settled {current : Option Record} {r : Record}
    (h : ∀ existing, current = some existing → existing.key = r.key) :
    (settled current r).key = r.key := by
  cases current with
  | none => rfl
  | some existing => exact h existing rfl

/-- Two records give one without fields exactly if neither has one. -/
theorem isEmpty_overwrite_iff :
    (overwrite.merge existing incoming headers).record.isEmpty = true ↔
      existing.isEmpty = true ∧ incoming.isEmpty = true := by
  simp only [Record.isEmpty, SortedMap.isEmpty_iff, find?_fields_overwrite, Option.or_eq_none_iff]
  constructor
  · intro h
    refine ⟨fun field => (h field).2, fun field => ?_⟩
    obtain ⟨hrefused, hnone⟩ := h field
    cases hfind : incoming.fields.find? field with
    | none => rfl
    | some value =>
      rw [hfind, hnone] at hrefused
      cases hrefused
  · rintro ⟨hexisting, hincoming⟩ field
    rw [hexisting, hincoming]
    exact ⟨rfl, rfl⟩

theorem isEmpty_overwrite (h : incoming.isEmpty = false) :
    (overwrite.merge existing incoming headers).record.isEmpty = false := by
  refine Bool.eq_false_iff.2 fun hempty => ?_
  rw [(isEmpty_overwrite_iff.1 hempty).2] at h
  cases h

end Merger
end Shapes
end RecordCache
