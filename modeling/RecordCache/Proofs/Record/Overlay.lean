import Mathlib.Logic.Function.Iterate
import RecordCache.Proofs.Record.Parsed

/-!
# Records laid over each other

A record can be laid over another in memory, or as a text over a text. Either way its fields,
metadata entries, type and mutation identifier win. Texts are read and written on the way, which may
change a floating-point number, but nothing of the record on top if it holds none.

* `Record.overlay` lays a record over another, which is what the plain merger does
  (`Merger.record_overwrite`) when errors may replace values;
* `Record.reread` is a record as it is read from its row, and `Record.overlay_reread` says that an
  exact record may be laid over another before or after that one is read.
-/

namespace RecordCache

/-- Reading the metadata back goes with laying them over others. -/
theorem FieldMetadata.mapValues_overlayAll (stored top : SortedMap String FieldMetadata) :
    (overlayAll stored top).mapValues reread =
      overlayAll (stored.mapValues reread) (top.mapValues reread) := by
  refine SortedMap.ext fun field => ?_
  rw [find?_overlayAll, SortedMap.find?_mapValues, SortedMap.find?_mapValues,
    SortedMap.find?_mapValues, find?_overlayAll]
  cases top.find? field with
  | none => rfl
  | some entries =>
    refine congrArg some ?_
    rw [reread, SortedMap.mapValues_overlay]
    cases stored.find? field <;> rfl

namespace Record

/-- A record laid over another: its fields, metadata entries, type and mutation identifier win. -/
def overlay (stored top : Record) : Record :=
  (Blob.overlay (.ofRecord stored) (.ofRecord top)).toRecord stored.key top.typeName

/-- The record as it is read from its row. -/
def reread (r : Record) : Record := (Blob.ofRecord r).reread.toRecord r.key r.typeName

@[simp] theorem key_overlay (stored top : Record) : (stored.overlay top).key = stored.key := rfl

@[simp] theorem key_reread (r : Record) : r.reread.key = r.key := rfl

theorem typeName_iterate_reread (n : Nat) (r : Record) : (reread^[n] r).typeName = r.typeName := by
  induction n generalizing r with
  | zero => rfl
  | succ n ih =>
    rw [Function.iterate_succ_apply, ih]
    rfl

theorem Exact.reread_self {r : Record} (h : r.Exact) : r.reread = r := by
  rw [reread, h.reread_eq]
  rfl

theorem Storable.overlay {stored top : Record} (h : stored.Storable .finite)
    (htop : top.Storable .finite) : (stored.overlay top).Storable .finite :=
  ⟨h.fields.overlay htop.fields, FieldMetadata.all_overlayAll h.metadata htop.metadata⟩

/-- A record without floating-point numbers that was read from a row is read back as it is. -/
theorem Storable.reread_self {r : Record} (h : r.Storable .stored) (hexact : r.IsExact) :
    r.reread = r :=
  (hexact.exact (storable_finite_iff.1 h.finite).1).reread_self

/-- An exact record stays as it is when the one below it is read back. -/
theorem overlay_reread (stored : Record) {top : Record} (htop : top.Exact) :
    (stored.overlay top).reread = stored.reread.overlay top := by
  have hblob : (Blob.overlay (.ofRecord stored) (.ofRecord top)).reread =
      Blob.overlay (Blob.ofRecord stored).reread (Blob.ofRecord top).reread := by
    simp only [Blob.overlay, Blob.reread, SortedMap.mapValues_overlay,
      FieldMetadata.mapValues_overlayAll]
  rw [htop.reread_eq] at hblob
  exact congrArg (fun blob => blob.toRecord stored.key top.typeName) hblob

/-- Also when that one is read back several times. -/
theorem overlay_iterate_reread (n : Nat) (stored : Record) {top : Record} (htop : top.Exact) :
    (reread^[n] stored).overlay top = reread^[n] (stored.overlay top) := by
  induction n generalizing stored with
  | zero => rfl
  | succ n ih =>
    rw [Function.iterate_succ_apply, Function.iterate_succ_apply, ih, overlay_reread stored htop]

end Record

/-- The plain merger lays an exact record over the stored one when errors may replace values. -/
theorem Merger.record_overwrite {headers : Headers}
    (hheaders : headers.has Headers.errorsReplaceCachedValues = true) (stored : Record)
    {top : Record} (htop : top.Exact) :
    (overwrite.merge stored top headers).record = stored.overlay top := by
  have hfields : (overwrite.merge stored top headers).record.fields =
      stored.fields.overlay top.fields :=
    fields_overwrite (htop.fields.imp fun _ h => ⟨_, h⟩) (.inl hheaders)
  show Record.mk _ _ _ _ _ = Record.mk _ _ _ _ _
  exact congrArg (fun fields => Record.mk stored.key top.typeName fields
    (FieldMetadata.overlayAll stored.metadata top.metadata) top.mutation) hfields

/-- The row of a record is read as the record read back. -/
theorem Record.Storable.decode_row {r : Record} (h : r.Storable .finite) (dates : WriteDates)
    (trackDates : Bool) : (dates.row trackDates r).decode = .ok r.reread := by
  rw [WriteDates.decode_row, if_pos (Record.storable_finite_iff.1 h)]
  rfl

end RecordCache
