import RecordCache.Proofs.MutationId
import RecordCache.Proofs.SortedMap
import RecordCache.Proofs.Value.Codec
import RecordCache.Record.Codec

/-!
# Reading blobs back

The text of a stored part is read back exactly when it nests no deeper than the reader goes and
every floating-point number in its fields is finite.

* `Blob.IsReadable` is this condition;
* `Blob.reread` is the stored part that a reader makes of the text of one;
* `Blob.parse?_print`: a reader reads this part if it is readable, and nothing otherwise;
* `Blob.decode?_encode`: so it is with the record that the text was made from.
-/

namespace RecordCache

open Json (Document)

theorem SortedMap.nesting_toJson_le {α : Type} {write : α → Json} {m : SortedMap String α}
    {depth : Nat} : (m.toJson write).nesting ≤ depth + 1 ↔
      ∀ value ∈ m.values, (write value).nesting ≤ depth := by
  show Json.memberNesting (m.entries.map fun entry => (entry.1, write entry.2)) + 1 ≤ depth + 1 ↔ _
  rw [Nat.add_le_add_iff_right, Json.memberNesting_le, List.forall_mem_map, values,
    List.forall_mem_map]

/-- A map is read back when each of its values is. -/
theorem SortedMap.dictionary?_toJson {α β : Type} (write : α → Json)
    {read : Document → Option β} {P : α → Prop} [DecidablePred P] {h : α → β}
    (hread : ∀ value, read (write value).document = if P value then some (h value) else none)
    (m : SortedMap String α) : (m.toJson write).document.dictionary? read =
      if ∀ value ∈ m.values, P value then some (m.mapValues h) else none := by
  have hentries : m.entries.mapM (fun entry => (read (write entry.2).document).map fun value =>
      (entry.1, value)) = _ :=
    Json.mapM_if (P := fun entry => P entry.2) (h := fun entry => (entry.1, h entry.2))
      fun entry _ => by
        rw [hread]
        split <;> rfl
  show (Document.namedMembers? (Json.documentMembers _)).bind (fun named =>
    (named.mapM fun member => (read member.2).map fun value => (member.1, value)).bind
      fun entries => some (SortedMap.ofList entries)) = _
  rw [Document.namedMembers?_documentMembers, Option.bind_some, List.map_map, List.mapM_map]
  show (m.entries.mapM fun entry => (read (write entry.2).document).map fun value =>
    (entry.1, value)).bind _ = _
  have hvalues : (∀ entry ∈ m.entries, P entry.2) ↔ ∀ value ∈ m.values, P value :=
    List.forall_mem_map.symm
  have hmap : SortedMap.ofList (m.entries.map fun entry => (entry.1, h entry.2)) =
      m.mapValues h := SortedMap.ofList_entries (m.mapValues h)
  rw [hentries]
  simp only [hvalues]
  split
  · exact congrArg some hmap
  · rfl

/-- The metadata of a field as a reader reads them. -/
def FieldMetadata.reread (metadata : FieldMetadata) : FieldMetadata :=
  metadata.mapValues Json.reread

theorem FieldMetadata.ofDocument?_toJson (metadata : FieldMetadata) (depth : Nat) :
    ofDocument? depth metadata.toJson.document =
      if metadata.toJson.nesting ≤ depth then some metadata.reread else none := by
  cases depth with
  | zero => rfl
  | succ depth =>
    have hdictionary := SortedMap.dictionary?_toJson id
      (fun value => Json.ofDocument?_document value depth) metadata
    rw [ofDocument?, toJson, hdictionary]
    simp only [SortedMap.nesting_toJson_le]
    rfl

namespace Record

theorem fieldsOfDocument?_toJson (fields : SortedMap String Value) (depth : Nat) :
    fieldsOfDocument? (depth + 1) (fieldsToJson fields).document =
      if ∀ value ∈ fields.values, value.Fits depth then some (fields.mapValues Value.reread)
      else none :=
  SortedMap.dictionary?_toJson _ (fun value => Value.ofDocument?_toJson value depth) fields

theorem metadataOfDocument?_toJson (metadata : SortedMap String FieldMetadata) (depth : Nat) :
    metadataOfDocument? (depth + 1) (some (metadataToJson metadata).document) =
      if ∀ value ∈ metadata.values, value.toJson.nesting ≤ depth then
        some (metadata.mapValues FieldMetadata.reread)
      else none :=
  SortedMap.dictionary?_toJson _
    (fun value => FieldMetadata.ofDocument?_toJson value depth) metadata

end Record

namespace Blob

/-- The stored part as a reader reads its text. -/
def reread (blob : Blob) : Blob where
  fields := blob.fields.mapValues Value.reread
  metadata := blob.metadata.mapValues FieldMetadata.reread
  mutation := blob.mutation

/-- The stored part can be read back from its text to the given depth. -/
def Fits (depth : Nat) (blob : Blob) : Prop :=
  blob.toJson.nesting ≤ depth ∧ ∀ value ∈ blob.fields.values, value.isFinite = true

instance (depth : Nat) (blob : Blob) : Decidable (blob.Fits depth) := instDecidableAnd

/-- The stored part can be read back from its text. -/
def IsReadable (blob : Blob) : Prop := blob.Fits Json.depthLimit

instance (blob : Blob) : Decidable blob.IsReadable := inferInstanceAs (Decidable (Blob.Fits _ _))

theorem nesting_mutationMember (mutation : Option MutationId) :
    Json.memberNesting (Record.mutationMember mutation) = 0 := by
  cases mutation <;> rfl

theorem nesting_toJson (blob : Blob) : blob.toJson.nesting =
    max (Record.fieldsToJson blob.fields).nesting (Record.metadataToJson blob.metadata).nesting +
      1 := by
  show max _ (max _ (Json.memberNesting (Record.mutationMember blob.mutation))) + 1 = _
  rw [nesting_mutationMember, Nat.max_zero]

/-- What the reading of a stored part asks of its parts. -/
theorem fits_iff {blob : Blob} {depth : Nat} : blob.Fits (depth + 2) ↔
    (∀ value ∈ blob.fields.values, value.Fits depth) ∧
      ∀ value ∈ blob.metadata.values, value.toJson.nesting ≤ depth := by
  rw [Fits, nesting_toJson, Nat.add_le_add_iff_right, Nat.max_le, Record.fieldsToJson,
    Record.metadataToJson, SortedMap.nesting_toJson_le, SortedMap.nesting_toJson_le]
  constructor
  · rintro ⟨⟨hfields, hmetadata⟩, hfinite⟩
    exact ⟨fun value hvalue => ⟨hfields value hvalue, hfinite value hvalue⟩, hmetadata⟩
  · rintro ⟨hfields, hmetadata⟩
    exact ⟨⟨fun value hvalue => (hfields value hvalue).1, hmetadata⟩,
      fun value hvalue => (hfields value hvalue).2⟩

theorem fields?_document (fields metadata : Json) (mutation : Option MutationId) :
    (Json.document (.object ([("fields", fields), ("metadata", metadata)] ++
      Record.mutationMember mutation))).fields? ["fields", "metadata", "mutation_id"] =
        some [some fields.document, some metadata.document,
          mutation.map fun id => .string (some id.text)] := by
  cases mutation <;> rfl

theorem mutationOfDocument?_text (mutation : Option MutationId) :
    Record.mutationOfDocument? (mutation.map fun id => .string (some id.text)) =
      some mutation := by
  cases mutation with
  | none => rfl
  | some id =>
    show (MutationId.parse? id.text).map some = _
    rw [MutationId.parse?_text]
    rfl

/-- A reader reads back what was written, unless it nests too deep or holds a number that is not
finite. -/
theorem ofDocument?_toJson (blob : Blob) (depth : Nat) :
    ofDocument? (depth + 2) blob.toJson.document =
      if blob.Fits (depth + 2) then some blob.reread else none := by
  have hfields := Record.fieldsOfDocument?_toJson blob.fields depth
  have hmetadata := Record.metadataOfDocument?_toJson blob.metadata depth
  simp only [fits_iff]
  rw [ofDocument?, toJson, fields?_document]
  simp only [bind, Option.bind_some, hfields, hmetadata, mutationOfDocument?_text]
  by_cases hf : ∀ value ∈ blob.fields.values, value.Fits depth
  · by_cases hm : ∀ value ∈ blob.metadata.values, value.toJson.nesting ≤ depth
    · rw [if_pos hf, if_pos hm, if_pos ⟨hf, hm⟩]
      rfl
    · have hboth : ¬((∀ value ∈ blob.fields.values, value.Fits depth) ∧
          ∀ value ∈ blob.metadata.values, value.toJson.nesting ≤ depth) := fun h => hm h.2
      rw [if_pos hf, if_neg hm, if_neg hboth]
      rfl
  · have hboth : ¬((∀ value ∈ blob.fields.values, value.Fits depth) ∧
        ∀ value ∈ blob.metadata.values, value.toJson.nesting ≤ depth) := fun h => hf h.1
    rw [if_neg hf, if_neg hboth]
    rfl

/-- **Reading back.** The text of a stored part is read exactly when the part is readable. -/
theorem parse?_print (blob : Blob) :
    parse? blob.print = if blob.IsReadable then some blob.reread else none := by
  rw [parse?, print, Document.parse?_print, Option.bind_some]
  exact ofDocument?_toJson blob 125

/-- So it is with the record that a stored text is made from. -/
theorem decode?_encode (r : Record) (key : Key) (typeName : String) :
    decode? key typeName (encode r) =
      if (ofRecord r).IsReadable then some ((ofRecord r).reread.toRecord key typeName)
      else none := by
  rw [decode?, encode, parse?_print]
  split <;> rfl

end Blob
end RecordCache
