import RecordCache.Proofs.Freshness
import RecordCache.Proofs.Record.Overlay

/-!
# Dates in metadata

The dates of a field are two entries of its metadata, apart from its value. Headers stamp them into
every field of a record, and a record that is merged lays its own over those that were there.

* `Record.metadataOf_withDates`: the metadata of a field that is stamped;
* `Record.Carries` says that the metadata of a field give the dates of some headers;
* `Record.Carries.lt_of_fresh`: a field that counts as fresh has not reached the date of expiration
  that it carries.
-/

namespace RecordCache

/-- The headers say when data were received and when they expire. -/
structure Headers.GiveDates (headers : Headers) : Prop where
  received : (headers.int64? receivedDate).isSome = true
  expiration : (headers.int64? expirationDate).isSome = true

variable {field : String} {headers : Headers}

namespace FieldMetadata

theorem find?_withDate (metadata : FieldMetadata) (name : String) (date : Option Int64)
    (entry : String) : (metadata.withDate name date).find? entry =
      if entry = name then (date.map Json.ofInt64).or (metadata.find? entry)
      else metadata.find? entry := by
  cases date with
  | none => exact (ite_self _).symm
  | some date => exact SortedMap.find?_insert_eq _ _ _ _

end FieldMetadata

namespace Record

/-- Dates are stamped into the metadata of the fields that the record has. -/
theorem metadataOf_withDates (r : Record) (received expiration : Option Int64) (field : String) :
    (r.withDates received expiration).metadataOf field =
      if r.fields.contains field then
        ((r.metadataOf field).withDate FieldMetadata.receivedDate received).withDate
          FieldMetadata.expirationDate expiration
      else r.metadataOf field := by
  rw [withDates]
  split
  · rename_i hnone
    obtain ⟨hreceived, hexpiration⟩ := Bool.and_eq_true_iff.1 hnone
    rw [Option.isNone_iff_eq_none.1 hreceived, Option.isNone_iff_eq_none.1 hexpiration]
    exact (ite_self _).symm
  · have hstamped := SortedMap.find?_foldl_entries
      (fun _ _ held => ((held.getD ∅).withDate FieldMetadata.receivedDate received).withDate
        FieldMetadata.expirationDate expiration) r.fields r.metadata field
    dsimp only [metadataOf, SortedMap.keys]
    rw [List.foldl_map]
    refine (congrArg (fun held : Option FieldMetadata => held.getD ∅) hstamped).trans ?_
    rw [SortedMap.contains]
    cases r.fields.find? field <;> rfl

theorem metadataOf_stamped (r : Record) (headers : Headers) (field : String) :
    (r.stamped true headers).metadataOf field =
      if r.fields.contains field then
        ((r.metadataOf field).withDate FieldMetadata.receivedDate
          (headers.int64? Headers.receivedDate)).withDate FieldMetadata.expirationDate
            (headers.int64? Headers.expirationDate)
      else r.metadataOf field :=
  metadataOf_withDates _ _ _ _

theorem metadataOf_reread (r : Record) (field : String) :
    r.reread.metadataOf field = (r.metadataOf field).reread := by
  refine (congrArg (fun held : Option FieldMetadata => held.getD ∅)
    (SortedMap.find?_mapValues FieldMetadata.reread r.metadata field)).trans ?_
  rw [metadataOf]
  cases r.metadata.find? field <;> rfl

/-- The metadata of a field give the dates of some headers. -/
structure Carries (r : Record) (field : String) (headers : Headers) : Prop where
  received : (r.metadataOf field).find? FieldMetadata.receivedDate =
    (headers.int64? Headers.receivedDate).map Json.ofInt64
  expiration : (r.metadataOf field).find? FieldMetadata.expirationDate =
    (headers.int64? Headers.expirationDate).map Json.ofInt64

/-- The metadata of a field name no date. -/
structure Undated (r : Record) (field : String) : Prop where
  received : (r.metadataOf field).find? FieldMetadata.receivedDate = none
  expiration : (r.metadataOf field).find? FieldMetadata.expirationDate = none

variable {r existing incoming : Record}

theorem carries_stamped (hdates : headers.GiveDates) (hfield : r.fields.contains field = true) :
    (r.stamped true headers).Carries field headers := by
  obtain ⟨received, hreceived⟩ := Option.isSome_iff_exists.1 hdates.received
  obtain ⟨expiration, hexpiration⟩ := Option.isSome_iff_exists.1 hdates.expiration
  have hdistinct : FieldMetadata.receivedDate ≠ FieldMetadata.expirationDate := by decide
  constructor
  · rw [metadataOf_stamped, if_pos hfield, FieldMetadata.find?_withDate, if_neg hdistinct,
      FieldMetadata.find?_withDate, if_pos rfl, hreceived]
    rfl
  · rw [metadataOf_stamped, if_pos hfield, FieldMetadata.find?_withDate, if_pos rfl, hexpiration]
    rfl

theorem undated_stamped (hfield : r.fields.contains field = false) (h : r.Undated field) :
    (r.stamped true headers).Undated field := by
  have hsame : (r.stamped true headers).metadataOf field = r.metadataOf field := by
    rw [metadataOf_stamped, hfield]
    rfl
  exact ⟨hsame ▸ h.received, hsame ▸ h.expiration⟩

/-- The incoming dates win. -/
theorem Carries.overwrite (h : incoming.Carries field headers) (hdates : headers.GiveDates)
    (top : Headers) :
    (Merger.overwrite.merge existing incoming top).record.Carries field headers := by
  constructor
  · rw [Merger.metadataOf_overwrite, SortedMap.find?_overlay, h.received]
    exact Option.or_of_isSome (Option.isSome_map.trans hdates.received)
  · rw [Merger.metadataOf_overwrite, SortedMap.find?_overlay, h.expiration]
    exact Option.or_of_isSome (Option.isSome_map.trans hdates.expiration)

/-- Where there are none, those stored stay. -/
theorem Carries.kept (h : existing.Carries field headers) (hnone : incoming.Undated field)
    (top : Headers) :
    (Merger.overwrite.merge existing incoming top).record.Carries field headers := by
  constructor
  · rw [Merger.metadataOf_overwrite, SortedMap.find?_overlay, hnone.received]
    exact h.received
  · rw [Merger.metadataOf_overwrite, SortedMap.find?_overlay, hnone.expiration]
    exact h.expiration

/-- Dates are read back as they were written. -/
theorem Carries.reread (h : r.Carries field headers) : r.reread.Carries field headers := by
  have hinteger (date : Option Int64) :
      (date.map Json.ofInt64).map Json.reread = date.map Json.ofInt64 := by
    rw [Option.map_map]
    rfl
  constructor
  · rw [metadataOf_reread, FieldMetadata.reread, SortedMap.find?_mapValues, h.received, hinteger]
  · rw [metadataOf_reread, FieldMetadata.reread, SortedMap.find?_mapValues, h.expiration, hinteger]

/-- **Fresh fields.** A value that is reported as fresh has not reached the date of expiration that
its metadata give. -/
theorem Carries.lt_of_fresh (h : r.Carries field headers) {date : Int64}
    (hdate : headers.int64? Headers.expirationDate = some date) {resolver : Freshness.Resolver}
    {clock : Instant} {ask : Headers} {read : Freshness.FieldRead}
    (hread : resolver.read? clock ask r field = some read) (hfresh : read.isFresh = true) :
    (ask.int64? Headers.date).getD clock.seconds < date := by
  have hexpiration : resolver.expiration? r field = some date := by
    have hentry := h.expiration
    rw [hdate] at hentry
    rw [Freshness.Resolver.expiration?]
    simp only [FieldMetadata.int64?_of_find? hentry]
  have hat (now : Int64) (hfresh : (resolver.readAt now ask r field).isFresh = true) :
      now < date := by
    have hexact : (resolver.readAt now ask r field).Exact (r.fields.find? field)
        (some date.toInt) now.toInt ask.tolerance :=
      Freshness.Resolver.readAt_exact (congrArg (Option.map Int64.toInt) hexpiration)
    cases houtcome : resolver.readAt now ask r field with
    | fresh value =>
      exact Int64.lt_iff_toInt_lt.2 (((hexact.fresh value).1 houtcome).2 _ rfl)
    | _ =>
      rw [houtcome] at hfresh
      cases hfresh
  rw [Freshness.Resolver.read?] at hread
  cases hask : ask.int64? Headers.date with
  | some now =>
    rw [hask] at hread
    cases hread
    exact hat now hfresh
  | none =>
    rw [hask] at hread
    dsimp only at hread
    split at hread
    · cases hread
    · cases hread
      exact hat clock.seconds hfresh

end Record
end RecordCache
