import RecordCache.Proofs.Merge

/-!
# The place of a page

Windows and connections keep in the metadata of a field where the stored page belongs: the position
of its first item, or the cursors of its first and last edge. The metadata of a merged field are
those of the merger laid over the stored ones, also when the merger drops the stored page.

* `FieldMerger.Paginates`: the mergers of pages, with the metadata entries that place a page;
* `Paginates.value_merge_congr`: what becomes of a later page depends on these entries only;
* `Paginates.replaced_field`: a page that replaces the stored one keeps the entries it has, takes
  over those it lacks, and is placed as it was exactly if the stored page had none of those either;
* `Window.replaced_list_keeps_offset`: a list that says no position takes over that of the list it
  replaces, and a later window is joined to it there.
-/

namespace RecordCache

variable {stored stored' : FieldMetadata} {value : Value} {page : FieldInfo}

namespace Window

theorem value_merge_congr (hoffset : stored.find? offset = stored'.find? offset) :
    (merge ⟨value, stored⟩ page).value = (merge ⟨value, stored'⟩ page).value := by
  have hfirst : stored.int64? offset = stored'.int64? offset :=
    congrArg (Option.bind · Json.int64?) hoffset
  simp only [merge, hfirst]
  split
  · split <;> rfl
  · rfl

end Window

namespace Connection

theorem value_merge_congr (hstart : stored.find? startCursor = stored'.find? startCursor)
    (hend : stored.find? endCursor = stored'.find? endCursor) :
    (merge ⟨value, stored⟩ page).value = (merge ⟨value, stored'⟩ page).value := by
  have hfirst : stored.string? startCursor = stored'.string? startCursor :=
    congrArg (Option.bind · Json.string?) hstart
  have hlast : stored.string? endCursor = stored'.string? endCursor :=
    congrArg (Option.bind · Json.string?) hend
  simp only [merge, hfirst, hlast]
  split
  · rfl
  · split
    · split
      · split <;> rfl
      · rfl
    · rfl

end Connection

/-- The mergers of pages, each with the metadata entries that place the stored page. -/
inductive FieldMerger.Paginates : FieldMerger → List String → Prop
  | window : Paginates Window.merge [Window.offset]
  | connection : Paginates Connection.merge [Connection.startCursor, Connection.endCursor]

namespace FieldMerger.Paginates

variable {merge : FieldMerger} {places : List String}

/-- What becomes of a stored page depends on the entries that place it, and on no others. -/
theorem value_merge_congr (h : Paginates merge places)
    (hsame : ∀ name ∈ places, stored.find? name = stored'.find? name) :
    (merge ⟨value, stored⟩ page).value = (merge ⟨value, stored'⟩ page).value := by
  cases h with
  | window => exact Window.value_merge_congr (hsame _ List.mem_cons_self)
  | connection =>
    obtain ⟨hstart, hrest⟩ := List.forall_mem_cons.1 hsame
    exact Connection.value_merge_congr hstart (hrest _ List.mem_cons_self)

/-- **Replaced pages.** Where the merger of pages returns the incoming field, its value is stored.
Each metadata entry is the incoming one, or else the stored one; so the page is placed by its own
entries exactly if the stored page had none that it lacks, and then later pages are merged with it
as with the page that came in. -/
theorem replaced_field (h : Paginates merge places) {existing incoming : Record} {field : String}
    {old value : Value} (headers : Headers) (hold : existing.fields.find? field = some old)
    (hvalue : incoming.fields.find? field = some value)
    (hreplaced : merge ⟨old, existing.metadataOf field⟩ ⟨value, incoming.metadataOf field⟩ =
      ⟨value, incoming.metadataOf field⟩) :
    let merged := ((Merger.byField merge).merge existing incoming headers).record
    let lacksNone := ∀ name ∈ places, (incoming.metadataOf field).find? name = none →
      (existing.metadataOf field).find? name = none
    merged.fields.find? field = some value ∧
      (∀ name, (merged.metadataOf field).find? name =
        ((incoming.metadataOf field).find? name).or ((existing.metadataOf field).find? name)) ∧
      (lacksNone ↔ ∀ name ∈ places,
        (merged.metadataOf field).find? name = (incoming.metadataOf field).find? name) ∧
      (lacksNone → ∀ later, (merge ⟨value, merged.metadataOf field⟩ later).value =
        (merge ⟨value, incoming.metadataOf field⟩ later).value) := by
  intro merged lacksNone
  have hfield : Merger.mergeField merge existing incoming field value =
      ⟨value, (existing.metadataOf field).overlay (incoming.metadataOf field)⟩ := by
    simp only [Merger.mergeField, hold, hreplaced]
  obtain ⟨hstored, hmetadata⟩ : merged.fields.find? field = some _ ∧
      merged.metadataOf field = _ := Merger.byField_arrives merge hvalue
  rw [hfield] at hstored hmetadata
  have hentry (name : String) : (merged.metadataOf field).find? name =
      ((incoming.metadataOf field).find? name).or ((existing.metadataOf field).find? name) := by
    rw [hmetadata]
    exact SortedMap.find?_overlay _ _ name
  have hplaced : lacksNone ↔ ∀ name ∈ places,
      (merged.metadataOf field).find? name = (incoming.metadataOf field).find? name := by
    refine forall₂_congr fun name _ => ?_
    rw [hentry]
    cases (incoming.metadataOf field).find? name with
    | none => exact ⟨fun hnone => hnone rfl, fun hnone _ => hnone⟩
    | some entry => exact ⟨fun _ => rfl, fun _ hnone => absurd hnone (Option.some_ne_none entry)⟩
  exact ⟨hstored, hentry, hplaced, fun hlacks _ => h.value_merge_congr (hplaced.1 hlacks)⟩

/-- A window behind a gap replaces the stored one and brings its own position. -/
theorem replaced_field_behind_gap :
    let existing := ((Record.new ⟨"a"⟩ "T").withField "f" (.list [.int 1])).withMetadata "f"
      Window.offset (.ofInt64 0)
    let incoming := ((Record.new ⟨"a"⟩ "T").withField "f" (.list [.int 2])).withMetadata "f"
      Window.offset (.ofInt64 5)
    let merged := (Merger.window.merge existing incoming Headers.none).record
    (existing.fields.find? "f" = some (.list [.int 1]) ∧
      incoming.fields.find? "f" = some (.list [.int 2]) ∧
      Window.merge ⟨.list [.int 1], existing.metadataOf "f"⟩
          ⟨.list [.int 2], incoming.metadataOf "f"⟩ =
        ⟨.list [.int 2], incoming.metadataOf "f"⟩) ∧
      merged.fields.find? "f" = some (.list [.int 2]) ∧
      (merged.metadataOf "f").find? Window.offset = some (.ofInt64 5) := by
  intro existing incoming merged
  have hold : existing.fields.find? "f" = some (.list [.int 1]) := rfl
  have hvalue : incoming.fields.find? "f" = some (.list [.int 2]) := rfl
  have hreplaced : Window.merge ⟨.list [.int 1], existing.metadataOf "f"⟩
      ⟨.list [.int 2], incoming.metadataOf "f"⟩ =
        ⟨.list [.int 2], incoming.metadataOf "f"⟩ := rfl
  obtain ⟨hstored, hentry, -⟩ := replaced_field .window Headers.none hold hvalue hreplaced
  exact ⟨⟨hold, hvalue, hreplaced⟩, hstored, hentry Window.offset⟩

end FieldMerger.Paginates

/-- A list that says no position replaces the window at position 0, whose position stays: the next
window is joined to the list there, and replaces the list as it came in. -/
theorem Window.replaced_list_keeps_offset :
    let existing := ((Record.new ⟨"a"⟩ "T").withField "f" (.list [.int 1])).withMetadata "f" offset
      (.ofInt64 0)
    let incoming := ((Record.new ⟨"a"⟩ "T").withField "f" (.list [.int 2])).withMetadata "f" "note"
      (.ofInt64 1)
    let merged := (Merger.window.merge existing incoming Headers.none).record
    let later : FieldInfo := ⟨.list [.int 3], (∅ : FieldMetadata).insert offset (.ofInt64 1)⟩
    merge ⟨.list [.int 1], existing.metadataOf "f"⟩ ⟨.list [.int 2], incoming.metadataOf "f"⟩ =
        ⟨.list [.int 2], incoming.metadataOf "f"⟩ ∧
      (incoming.metadataOf "f").find? offset = none ∧
      (merged.metadataOf "f").find? offset = some (.ofInt64 0) ∧
      (merge ⟨.list [.int 2], merged.metadataOf "f"⟩ later).value = .list [.int 2, .int 3] ∧
      (merge ⟨.list [.int 2], incoming.metadataOf "f"⟩ later).value = .list [.int 3] :=
  ⟨rfl, rfl, rfl, rfl, rfl⟩

end RecordCache
