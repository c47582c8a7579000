import RecordCache.Proofs.Record.Shape

/-!
# Records written and read back

A record has two texts: the blob of its row, which leaves out the key and the type, and the text of
the whole record, which leaves out metadata where there are none. Both are read back alike.

* `Record.nesting_toJson`: the two texts nest equally deep;
* `Record.ofDocument?_toJson`: a reader makes of the whole record what it makes of its blob;
* `Record.parse_print`: a record is read back exactly when its blob is readable;
* `Record.reads_as_written`: a record without floating-point numbers is read back from both texts as
  it was, unless it nests too deep, so that its blob determines what it stores.
-/

namespace RecordCache

namespace Record

open Json (Document)

/-- Metadata that are left out where there are none would nest no deeper than the fields. -/
theorem nesting_toJson (r : Record) : r.toJson.nesting = (Blob.ofRecord r).toJson.nesting := by
  have hfields : 1 ≤ (fieldsToJson r.fields).nesting := Nat.le_add_left 1 _
  have hmutation := Blob.nesting_mutationMember r.mutation
  rw [Blob.nesting_toJson, toJson]
  show _ = max (fieldsToJson r.fields).nesting (metadataToJson r.metadata).nesting + 1
  by_cases hempty : r.metadata.isEmpty = true
  · have hnone : (metadataToJson r.metadata).nesting = 1 := by
      rw [show r.metadata = ∅ from SortedMap.entries_injective (List.isEmpty_iff.1 hempty)]
      rfl
    rw [if_pos hempty, hnone, Nat.max_eq_left hfields]
    simp [Json.memberNesting, Json.nesting, hmutation]
  · rw [if_neg hempty]
    simp [Json.memberNesting, Json.nesting, hmutation]

/-- Empty metadata are read as missing ones are. -/
theorem metadataOfDocument?_member (metadata : SortedMap String FieldMetadata) (depth : Nat) :
    metadataOfDocument? (depth + 1)
        (if metadata.isEmpty then none else some (metadataToJson metadata).document) =
      metadataOfDocument? (depth + 1) (some (metadataToJson metadata).document) := by
  split
  · rename_i hempty
    rw [show metadata = ∅ from SortedMap.entries_injective (List.isEmpty_iff.1 hempty)]
    rfl
  · rfl

theorem fields?_document (r : Record) :
    r.toJson.document.fields? ["key", "type", "fields", "metadata", "mutation_id"] =
      some [some (.string (some r.key.text)), some (.string (some r.typeName)),
        some (fieldsToJson r.fields).document,
        if r.metadata.isEmpty then none else some (metadataToJson r.metadata).document,
        r.mutation.map fun id => .string (some id.text)] := by
  rw [toJson]
  cases r.metadata.isEmpty <;> cases r.mutation <;> rfl

/-- A reader makes of a whole record what it makes of its blob. -/
theorem ofDocument?_toJson (r : Record) (depth : Nat) :
    ofDocument? (depth + 2) r.toJson.document =
      (Blob.ofDocument? (depth + 2) (Blob.ofRecord r).toJson.document).map fun blob =>
        blob.toRecord r.key r.typeName := by
  rw [ofDocument?, fields?_document, Blob.ofDocument?, Blob.toJson, Blob.fields?_document]
  simp only [bind, Option.bind_some, Document.string?, metadataOfDocument?_member]
  show Option.bind (fieldsOfDocument? _ (fieldsToJson r.fields).document) _ =
    Option.map _ (Option.bind (fieldsOfDocument? _ (fieldsToJson r.fields).document) _)
  cases fieldsOfDocument? (depth + 1) (fieldsToJson r.fields).document with
  | none => rfl
  | some fields =>
    show Option.bind (metadataOfDocument? _ (some (metadataToJson r.metadata).document)) _ =
      Option.map _ (Option.bind (metadataOfDocument? _ (some (metadataToJson r.metadata).document))
        _)
    cases metadataOfDocument? (depth + 1) (some (metadataToJson r.metadata).document) with
    | none => rfl
    | some metadata =>
      show Option.bind (mutationOfDocument? (r.mutation.map fun id => .string (some id.text))) _ =
        Option.map _ (Option.bind
          (mutationOfDocument? (r.mutation.map fun id => .string (some id.text))) _)
      cases mutationOfDocument? (r.mutation.map fun id => .string (some id.text)) <;> rfl

/-- The text of a record is read exactly when its blob is readable. -/
theorem parse_print (r : Record) :
    parse r.print =
      if (Blob.ofRecord r).IsReadable then
        .ok ((Blob.ofRecord r).reread.toRecord r.key r.typeName)
      else .error (.serializationFailed "the text is not the JSON form of a record") := by
  have hread : (Document.parse? r.print).bind (ofDocument? Json.depthLimit) =
      if (Blob.ofRecord r).IsReadable then
        some ((Blob.ofRecord r).reread.toRecord r.key r.typeName)
      else none := by
    rw [print, Document.parse?_print, Option.bind_some]
    show ofDocument? (125 + 2) r.toJson.document = _
    rw [ofDocument?_toJson, Blob.ofDocument?_toJson]
    show Option.map _ (if (Blob.ofRecord r).IsReadable then _ else _) = _
    split <;> rfl
  rw [parse, hread]
  by_cases h : (Blob.ofRecord r).IsReadable
  · rw [if_pos h, if_pos h]
  · rw [if_neg h, if_neg h]

/-- **Round trip.** A record without floating-point numbers whose text nests within the limit is
read back from its blob, given its key and its type, and from its own text, and no other record of
this kind with its blob stores anything else. A record that nests deeper is read back from
neither. -/
theorem reads_as_written {r : Record} (hexact : r.IsExact) :
    (r.toJson.nesting ≤ Json.depthLimit →
      Blob.decode? r.key r.typeName (Blob.encode r) = some r ∧ parse r.print = .ok r ∧
      ∀ other : Record, other.IsExact → other.toJson.nesting ≤ Json.depthLimit →
        Blob.encode other = Blob.encode r →
          other.fields = r.fields ∧ other.metadata = r.metadata ∧ other.mutation = r.mutation) ∧
    (Json.depthLimit < r.toJson.nesting →
      Blob.decode? r.key r.typeName (Blob.encode r) = none ∧
        ∃ error, parse r.print = .error error) := by
  have hblob {other : Record} (hexact : other.IsExact)
      (hdepth : other.toJson.nesting ≤ Json.depthLimit) (key : Key) (typeName : String) :
      Blob.decode? key typeName (Blob.encode other) =
        some ((Blob.ofRecord other).toRecord key typeName) := by
    have h := hexact.exact (other.nesting_toJson ▸ hdepth)
    rw [Blob.decode?_encode, if_pos (storable_finite_iff.1 h.storable), h.reread_eq]
  constructor
  · intro hdepth
    refine ⟨hblob hexact hdepth _ _, ?_, fun other hother hfits hsame => ?_⟩
    · have h := hexact.exact (r.nesting_toJson ▸ hdepth)
      rw [parse_print, if_pos (storable_finite_iff.1 h.storable), h.reread_eq]
      rfl
    · have hread := hblob hother hfits r.key r.typeName
      rw [hsame, hblob hexact hdepth] at hread
      injection hread with hread
      exact ⟨(congrArg fields hread).symm, (congrArg metadata hread).symm,
        (congrArg mutation hread).symm⟩
  · intro hdeep
    have hunreadable : ¬(Blob.ofRecord r).IsReadable := fun h =>
      absurd (r.nesting_toJson ▸ h.1) (Nat.not_le.2 hdeep)
    rw [Blob.decode?_encode, parse_print, if_neg hunreadable, if_neg hunreadable]
    exact ⟨rfl, _, rfl⟩

/-- Control characters, a quote, a backslash and letters beyond ASCII; the least signed and the
largest unsigned integer; a list in an object, an error with a path and one without; a field whose
metadata are empty, and a mutation identifier. -/
theorem reads_as_written_mixed_fields :
    let nested := Value.object [("é", .list [.null, .reference ⟨"n:\"1\\"⟩]), ("😀", .boolean true)]
    let largest := Json.number (.integer ⟨18446744073709551615, by decide⟩)
    let r : Record :=
      { key := ⟨"T:1\n"⟩
        typeName := "T\x01"
        fields := ((((∅ : SortedMap String Value).insert "nested" nested).insert "least"
          (.int Int64.minValue)).insert "failed" (.error ⟨"\t", ["a", ""]⟩)).insert "denied"
            (.error ⟨"", []⟩)
        metadata := ((∅ : SortedMap String FieldMetadata).insert "nested"
          ((∅ : FieldMetadata).insert "count" (.array [largest, .null]))).insert "denied" ∅
        mutation := some default }
    (r.IsExact ∧ r.toJson.nesting ≤ Json.depthLimit) ∧
      Blob.decode? r.key r.typeName (Blob.encode r) = some r ∧ parse r.print = .ok r := by
  intro nested largest r
  have hlist : ∀ item ∈ [Value.null, .reference ⟨"n:\"1\\"⟩], item.Within .exact 1 := by
    intro item hitem
    rcases List.mem_pair.1 hitem with rfl | rfl
    · exact .null
    · exact .reference _
  have hnested : nested.HasShape .exact := by
    refine ⟨5, .object (List.pairwise_pair.2 rfl) fun member hmember => ?_⟩
    rcases List.mem_pair.1 hmember with rfl | rfl
    · exact .list hlist
    · exact .boolean true
  have herror (e : FieldError) : (Value.error e).HasShape .exact := ⟨_, .error (Nat.le_refl _)⟩
  have hcount : (Json.array [largest, .null]).IsExact := by
    refine .array fun item hitem => ?_
    rcases List.mem_pair.1 hitem with rfl | rfl
    · exact .integer _
    · exact .null
  have hexact : r.IsExact := by
    constructor
    · exact (((SortedMap.all_empty.insert hnested).insert ⟨1, .int _⟩).insert (herror _)).insert
        (herror _)
    · exact (SortedMap.all_empty.insert (SortedMap.all_empty.insert hcount)).insert
        SortedMap.all_empty
  have hdepth : r.toJson.nesting ≤ Json.depthLimit := by decide +kernel
  obtain ⟨hdecode, hparse, -⟩ := (reads_as_written hexact).1 hdepth
  exact ⟨⟨hexact, hdepth⟩, hdecode, hparse⟩

end Record
end RecordCache
