import RecordCache.Proofs.Merge
import RecordCache.Proofs.Record.Blob
import RecordCache.Row

/-!
# Records that can be read back

Whether the blob of a record can be read back is a property of its values and its metadata entries,
one by one.

* `Record.Storable` says that the values have a shape and nest within the limit of the reader, as do
  the metadata entries; `Record.storable_finite_iff` that this is what makes a blob readable;
* `Record.storable_reread`: what is read back from a row can be written and read back again;
* `Record.IsExact` says that a record holds no floating-point number and that its objects are in
  order: its row is read as the record itself (`Record.Exact.decode_row`).
-/

namespace RecordCache
namespace Record

/-- The values have the shape, and no value and no metadata entry is too deep to be read back. -/
def Storable (shape : Value.Shape) (r : Record) : Prop :=
  r.All (Value.Within shape 125) fun json => json.nesting ≤ 124

theorem storable_finite_iff {r : Record} :
    r.Storable .finite ↔ (Blob.ofRecord r).IsReadable := by
  have hmetadata (metadata : FieldMetadata) :
      metadata.toJson.nesting ≤ 125 ↔ metadata.All fun json => json.nesting ≤ 124 := by
    rw [SortedMap.all_iff_values]
    exact SortedMap.nesting_toJson_le
  rw [Blob.IsReadable, show Json.depthLimit = 125 + 2 from rfl, Blob.fits_iff]
  simp only [hmetadata, Value.fits_iff_within]
  rw [← SortedMap.all_iff_values, ← SortedMap.all_iff_values]
  exact ⟨fun h => ⟨h.fields, h.metadata⟩, fun h => ⟨h.1, h.2⟩⟩

theorem Storable.finite {r : Record} (h : r.Storable .stored) : r.Storable .finite :=
  ⟨h.fields.imp fun _ => Value.Within.finite_of_stored, h.metadata⟩

/-- What is read back from a readable blob can be written and read back again. -/
theorem storable_reread {blob : Blob} (h : blob.IsReadable) (key : Key) (typeName : String) :
    (blob.reread.toRecord key typeName).Storable .stored := by
  have hstorable : (blob.toRecord key typeName).Storable .finite := storable_finite_iff.2 h
  refine ⟨hstorable.fields.mapValues fun _ => Value.within_reread,
    hstorable.metadata.mapValues fun _ hentries => hentries.mapValues ?_⟩
  exact fun json hjson => Nat.le_trans (Json.nesting_reread_le json) hjson

/-- The record holds no floating-point number, and all its objects are in order. -/
def IsExact (r : Record) : Prop := r.All (Value.HasShape .exact) Json.IsExact

/-- An exact record that can be read back, value by value. -/
def Exact (r : Record) : Prop :=
  r.All (Value.Within .exact 125) fun json => json.IsExact ∧ json.nesting ≤ 124

/-- An exact record can be read back when its blob is not too deep. -/
theorem IsExact.exact {r : Record} (h : r.IsExact)
    (hdepth : (Blob.ofRecord r).toJson.nesting ≤ Json.depthLimit) : r.Exact := by
  have hfits : (Blob.ofRecord r).IsReadable := by
    refine ⟨hdepth, SortedMap.all_iff_values.1 (h.fields.imp ?_)⟩
    exact fun value ⟨_, hvalue⟩ => hvalue.finite_of_exact.fits.2
  have hstorable := storable_finite_iff.2 hfits
  constructor
  · exact fun field value hfind => (h.fields field value hfind).within
      (hstorable.fields field value hfind).fits.1
  · exact fun field entries hfind name value hentry =>
      ⟨h.metadata field entries hfind name value hentry,
        hstorable.metadata field entries hfind name value hentry⟩

theorem Exact.storable {r : Record} (h : r.Exact) : r.Storable .finite :=
  ⟨h.fields.imp fun _ => Value.Within.finite_of_exact,
    h.metadata.imp fun _ hentries => hentries.imp fun _ => And.right⟩

theorem Exact.reread_eq {r : Record} (h : r.Exact) :
    (Blob.ofRecord r).reread = Blob.ofRecord r := by
  have hfields : r.fields.mapValues Value.reread = r.fields :=
    SortedMap.mapValues_eq_self fun field value hfind => (h.fields field value hfind).reread_eq
  have hmetadata : r.metadata.mapValues FieldMetadata.reread = r.metadata :=
    SortedMap.mapValues_eq_self fun field entries hfind =>
      SortedMap.mapValues_eq_self fun name value hentry =>
        (h.metadata field entries hfind name value hentry).1.reread_eq
  show Blob.mk _ _ _ = Blob.mk _ _ _
  exact congrArg₂ (fun fields metadata => Blob.mk fields metadata r.mutation) hfields hmetadata

end Record

/-- A row is read by reading its blob. -/
theorem Row.decode_eq_ok {row : Row} {r : Record} :
    row.decode = .ok r ↔
      ∃ blob, Blob.parse? row.blob = some blob ∧ blob.toRecord row.key row.typeName = r := by
  rw [decode, Blob.decode?]
  cases Blob.parse? row.blob with
  | none => simp
  | some blob => simp

/-- A blob is laid over another if both can be read. -/
theorem Row.overlayBlob_eq_ok {stored top text : String} :
    overlayBlob stored top = .ok text ↔ ∃ old new, Blob.parse? stored = some old ∧
      Blob.parse? top = some new ∧ (Blob.overlay old new).print = text := by
  rw [overlayBlob, Blob.overlayText?]
  cases Blob.parse? stored with
  | none => simp
  | some old =>
    cases Blob.parse? top with
    | none => simp
    | some new => simp

/-- The row of a record is read as the record that a reader makes of its blob, or not at all. -/
theorem WriteDates.decode_row (dates : WriteDates) (trackDates : Bool) (r : Record) :
    (dates.row trackDates r).decode =
      if (Blob.ofRecord r).IsReadable then
        .ok ((Blob.ofRecord r).reread.toRecord r.key r.typeName)
      else .error (.corruptedRecord r.key "the blob is not the JSON text of a record") := by
  have hdecode : Blob.decode? (dates.row trackDates r).key (dates.row trackDates r).typeName
      (dates.row trackDates r).blob = _ := Blob.decode?_encode r r.key r.typeName
  rw [Row.decode, hdecode]
  by_cases h : (Blob.ofRecord r).IsReadable
  · rw [if_pos h, if_pos h]
  · rw [if_neg h, if_neg h]
    rfl

/-- The row of an exact record is read as the record itself. -/
theorem Record.Exact.decode_row {r : Record} (h : r.Exact) (dates : WriteDates)
    (trackDates : Bool) : (dates.row trackDates r).decode = .ok r := by
  rw [WriteDates.decode_row, if_pos (Record.storable_finite_iff.1 h.storable), h.reread_eq]
  rfl

end RecordCache
