import RecordCache.Proofs.Merge

/-!
# Merging many records

Records of one key that are merged one after the other leave the last value given for each field,
where an error counts only if nothing else is given, unless errors may replace values. What is left
depends on the order of the records, and not on how the merges are grouped.

* `Merger.lastGiven?`: what is left of the values given for a field, and `lastGiven?_append` how
  more of them change it;
* `Merger.LastGiven`: the record that has the last of everything given, by `LastGiven.append` the
  merge of two such records, and by `LastGiven.unique` the only one;
* `Merger.mergeAll?` merges records one after the other, and `Merger.Grouping` in any other way;
* `Merger.overwrite_regroups`: all of them give that record.
-/

namespace RecordCache
namespace Merger

/-! ### One field -/

/-- The values that are no errors. -/
def withoutErrors (values : List Value) : List Value := values.filter fun value => !value.isError

/-- What is left of the values given for a field one after the other: the last of them if errors
replace values, and otherwise the last that is no error, or else the last error. -/
def lastGiven? (errorsReplace : Bool) (values : List Value) : Option Value :=
  if errorsReplace then values.getLast?
  else (withoutErrors values).getLast?.or values.getLast?

/-- The values that may replace any other: all of them, or those that are no errors. -/
def replacing (errorsReplace : Bool) (values : List Value) : List Value :=
  if errorsReplace then values else withoutErrors values

section Values

variable {errorsReplace : Bool} {earlier later values : List Value} {value : Value}

theorem mem_replacing : value ∈ replacing errorsReplace values ↔
    value ∈ values ∧ (!value.isError || errorsReplace) = true := by
  rw [replacing]
  cases errorsReplace <;> simp [withoutErrors]

theorem replacing_append : replacing errorsReplace (earlier ++ later) =
    replacing errorsReplace earlier ++ replacing errorsReplace later := by
  rw [replacing, replacing, replacing, withoutErrors, List.filter_append]
  split <;> rfl

theorem lastGiven?_eq : lastGiven? errorsReplace values =
    (replacing errorsReplace values).getLast?.or values.getLast? := by
  rw [lastGiven?, replacing]
  cases errorsReplace with
  | true => exact Option.or_self.symm
  | false => rfl

theorem lastGiven?_nil : lastGiven? errorsReplace [] = none := by
  cases errorsReplace <;> rfl

theorem lastGiven?_singleton : lastGiven? errorsReplace [value] = some value := by
  rw [lastGiven?, withoutErrors]
  cases errorsReplace <;> cases value <;> rfl

theorem mem_of_lastGiven? (h : lastGiven? errorsReplace values = some value) : value ∈ values := by
  rw [lastGiven?_eq] at h
  rcases Option.or_eq_some_iff.1 h with h | ⟨-, h⟩
  · exact (mem_replacing.1 (List.mem_of_getLast? h)).1
  · exact List.mem_of_getLast? h

/-- If nothing may replace any other value, there are only errors, and they do not. -/
theorem only_errors (hnone : (replacing errorsReplace values).getLast? = none)
    (h : value ∈ values) : value.isError = true ∧ errorsReplace = false := by
  have hnot : value ∉ replacing errorsReplace values := by
    rw [List.getLast?_eq_none_iff.1 hnone]
    exact List.not_mem_nil
  simpa [mem_replacing, h] using hnot

/-- What is left of more values is what one merge makes of what is left of each part. -/
theorem lastGiven?_append
    (hexact : ∀ value, lastGiven? errorsReplace later = some value → value.HasShape .exact) :
    lastGiven? errorsReplace (earlier ++ later) =
      ((lastGiven? errorsReplace later).filter
        (replaces errorsReplace (lastGiven? errorsReplace earlier))).or
          (lastGiven? errorsReplace earlier) := by
  have hboth : lastGiven? errorsReplace (earlier ++ later) =
      ((replacing errorsReplace later).getLast?.or (replacing errorsReplace earlier).getLast?).or
        (later.getLast?.or earlier.getLast?) := by
    rw [lastGiven?_eq, replacing_append, List.getLast?_append, List.getLast?_append]
  rw [hboth]
  cases hreplacing : (replacing errorsReplace later).getLast? with
  | some value =>
    -- a value that may replace any other is what is left in the end
    have hlater : lastGiven? errorsReplace later = some value := by
      rw [lastGiven?_eq, hreplacing, Option.some_or]
    rw [hlater, accepted_or_stored (hexact value hlater), Option.some_or, Option.some_or]
    intro old _
    rw [Bool.or_right_comm, (mem_replacing.1 (List.mem_of_getLast? hreplacing)).2, Bool.true_or]
  | none =>
    have hlater : lastGiven? errorsReplace later = later.getLast? := by
      rw [lastGiven?_eq, hreplacing, Option.none_or]
    rw [hlater, Option.none_or]
    cases hlast : later.getLast? with
    | none => exact lastGiven?_eq.symm
    | some value =>
      -- an error, which takes the place of errors only
      obtain ⟨herror, hkeep⟩ := only_errors hreplacing (List.mem_of_getLast? hlast)
      cases hearlier : (replacing errorsReplace earlier).getLast? with
      | some old =>
        have hold := (mem_replacing.1 (List.mem_of_getLast? hearlier)).2
        have hrefused : replaces errorsReplace (some old) value = false := by
          simp_all [replaces]
        rw [lastGiven?_eq, hearlier, Option.some_or, Option.some_or, Option.filter_some, hrefused]
        rfl
      | none =>
        rw [lastGiven?_eq, hearlier, Option.none_or,
          accepted_or_stored (hexact value (hlater.trans hlast))]
        · rfl
        · intro old hold
          rw [(only_errors hearlier (List.mem_of_getLast? hold)).1, Bool.or_true, Bool.true_or]

end Values

/-! ### Records -/

/-- The record has the last of everything that some records of its key give: for each field the
last value that counts, for each metadata entry the last one, and the type and the mutation
identifier of the last record. -/
structure LastGiven (headers : Headers) (records : List Record) (merged : Record) : Prop where
  key : ∀ r ∈ records, r.key = merged.key
  last : ∃ r, records.getLast? = some r ∧ merged.typeName = r.typeName ∧
    merged.mutation = r.mutation
  fields : ∀ field, merged.fields.find? field =
    lastGiven? (headers.has Headers.errorsReplaceCachedValues)
      (records.filterMap fun r => r.fields.find? field)
  entries : ∀ field name, (merged.metadataOf field).find? name =
    (records.filterMap fun r => (r.metadataOf field).find? name).getLast?
  described : ∀ field, merged.metadata.contains field =
    records.any fun r => r.metadata.contains field

section Records

variable {headers : Headers} {r existing incoming merged : Record} {key : Key}
  {records earlier later : List Record}

namespace LastGiven

theorem singleton (r : Record) : LastGiven headers [r] r where
  key := List.forall_mem_singleton.2 rfl
  last := ⟨r, rfl, rfl, rfl⟩
  fields field := by
    cases hfind : r.fields.find? field <;> simp [hfind, lastGiven?_singleton, lastGiven?_nil]
  entries field name := by
    cases hfind : (r.metadataOf field).find? name <;> simp [hfind]
  described field := (Bool.or_false _).symm

/-- Nothing else is given. -/
theorem all {P : Value → Prop} (h : LastGiven headers records merged)
    (hrecords : ∀ r ∈ records, r.fields.All P) : merged.fields.All P := by
  intro field value hvalue
  obtain ⟨r, hr, hfind⟩ := List.mem_filterMap.1 (mem_of_lastGiven? (h.fields field ▸ hvalue))
  exact hrecords r hr field value hfind

/-- Merging two of them gives the last of what both have. -/
theorem append (h : LastGiven headers earlier existing) (h' : LastGiven headers later incoming)
    (hkey : existing.key = incoming.key) (hexact : incoming.fields.All (Value.HasShape .exact)) :
    LastGiven headers (earlier ++ later) (overwrite.merge existing incoming headers).record where
  key := List.forall_mem_append.2 ⟨h.key, fun r hr => (h'.key r hr).trans hkey.symm⟩
  last := by
    obtain ⟨r, hlast, htype, hmutation⟩ := h'.last
    exact ⟨r, by rw [List.getLast?_append, hlast, Option.some_or], htype, hmutation⟩
  fields field := by
    rw [find?_fields_overwrite, h.fields, h'.fields, List.filterMap_append, lastGiven?_append]
    intro value hvalue
    exact hexact field value ((h'.fields field).trans hvalue)
  entries field name := by
    rw [metadataOf_overwrite, SortedMap.find?_overlay, h.entries, h'.entries,
      List.filterMap_append, List.getLast?_append]
  described field := by
    show ((FieldMetadata.overlayAll _ _).find? field).isSome = _
    rw [FieldMetadata.find?_overlayAll, Option.isSome_or, Option.isSome_map, Bool.or_comm,
      List.any_append, ← h.described, ← h'.described]
    rfl

theorem unique (h : LastGiven headers records existing) (h' : LastGiven headers records incoming) :
    existing = incoming := by
  obtain ⟨r, hlast, htype, hmutation⟩ := h.last
  obtain ⟨r', hlast', htype', hmutation'⟩ := h'.last
  obtain rfl : r = r' := Option.some.inj (hlast.symm.trans hlast')
  have hr := List.mem_of_getLast? hlast
  have hkey : existing.key = incoming.key := (h.key r hr).symm.trans (h'.key r hr)
  have hfields : existing.fields = incoming.fields :=
    SortedMap.ext fun field => (h.fields field).trans (h'.fields field).symm
  have hmetadata : existing.metadata = incoming.metadata := by
    refine SortedMap.ext fun field => ?_
    -- empty metadata have no entries either, so it counts too whether there are any
    have hcontains : existing.metadata.contains field = incoming.metadata.contains field :=
      (h.described field).trans (h'.described field).symm
    have hentries : existing.metadataOf field = incoming.metadataOf field :=
      SortedMap.ext fun name => (h.entries field name).trans (h'.entries field name).symm
    rw [SortedMap.contains, SortedMap.contains] at hcontains
    rw [Record.metadataOf, Record.metadataOf] at hentries
    cases hfind : existing.metadata.find? field <;>
      cases hfind' : incoming.metadata.find? field <;> simp_all
  obtain ⟨_, _, _, _, _⟩ := existing
  obtain ⟨_, _, _, _, _⟩ := incoming
  rw [Record.mk.injEq]
  exact ⟨hkey, htype.trans htype'.symm, hfields, hmetadata, hmutation.trans hmutation'.symm⟩

theorem key_eq (h : LastGiven headers records merged) (hkey : ∀ r ∈ records, r.key = key) :
    merged.key = key := by
  obtain ⟨r, hlast, -⟩ := h.last
  have hr := List.mem_of_getLast? hlast
  exact (h.key r hr).symm.trans (hkey r hr)

end LastGiven

end Records

/-! ### Ways to merge -/

/-- One record merged into another of its key, incoming fields winning. -/
def overwritten? (headers : Headers) (existing incoming : Record) : Except Error Record :=
  (overwrite.merge? existing incoming headers).map Merged.record

/-- Records merged one after the other into a first one. -/
def mergeAll? (headers : Headers) (first : Record) (rest : List Record) : Except Error Record :=
  rest.foldlM (overwritten? headers) first

/-- A way to merge records in their order: one as it is, or what is merged of some of them and then
what is merged of the others. -/
inductive Grouping
  | record (r : Record)
  | pair (earlier later : Grouping)

namespace Grouping

/-- The records in their order. -/
def records : Grouping → List Record
  | record r => [r]
  | pair earlier later => earlier.records ++ later.records

/-- The records merged in this way. -/
def merged? (headers : Headers) : Grouping → Except Error Record
  | record r => .ok r
  | pair earlier later => do
    let existing ← earlier.merged? headers
    let incoming ← later.merged? headers
    overwritten? headers existing incoming

end Grouping

section Ways

variable {headers : Headers} {first existing incoming : Record} {key : Key}
  {rest earlier later : List Record}

theorem LastGiven.overwritten (h : LastGiven headers earlier existing)
    (h' : LastGiven headers later incoming) (hkey : existing.key = incoming.key)
    (hexact : incoming.fields.All (Value.HasShape .exact)) : ∃ merged,
      overwritten? headers existing incoming = .ok merged ∧
      LastGiven headers (earlier ++ later) merged := by
  refine ⟨_, ?_, h.append h' hkey hexact⟩
  rw [overwritten?, merge?, if_pos hkey]
  rfl

/-- However records are merged, what is left is the last of everything given. -/
theorem Grouping.lastGiven {grouping : Grouping} (hkey : ∀ r ∈ grouping.records, r.key = key)
    (hexact : ∀ r ∈ grouping.records, r.fields.All (Value.HasShape .exact)) :
    ∃ merged, grouping.merged? headers = .ok merged ∧
      LastGiven headers grouping.records merged := by
  induction grouping with
  | record r => exact ⟨r, rfl, .singleton r⟩
  | pair earlier later ih ih' =>
    obtain ⟨hkeys, hkeys'⟩ := List.forall_mem_append.1 hkey
    obtain ⟨hexacts, hexacts'⟩ := List.forall_mem_append.1 hexact
    obtain ⟨existing, hexisting, hlast⟩ := ih hkeys hexacts
    obtain ⟨incoming, hincoming, hlast'⟩ := ih' hkeys' hexacts'
    have hsame := (hlast.key_eq hkeys).trans (hlast'.key_eq hkeys').symm
    obtain ⟨merged, hmerged, hboth⟩ := hlast.overwritten hlast' hsame (hlast'.all hexacts')
    refine ⟨merged, ?_, hboth⟩
    rw [merged?, hexisting, hincoming]
    exact hmerged

/-- So it is when they are merged one after the other. -/
theorem LastGiven.mergeAll (h : LastGiven headers earlier existing)
    (hkey : ∀ r ∈ rest, r.key = existing.key)
    (hexact : ∀ r ∈ rest, r.fields.All (Value.HasShape .exact)) :
    ∃ merged, mergeAll? headers existing rest = .ok merged ∧
      LastGiven headers (earlier ++ rest) merged := by
  induction rest generalizing earlier existing with
  | nil => exact ⟨existing, rfl, (List.append_nil earlier).symm ▸ h⟩
  | cons r rest ih =>
    obtain ⟨hr, hkeys⟩ := List.forall_mem_cons.1 hkey
    obtain ⟨hrexact, hexacts⟩ := List.forall_mem_cons.1 hexact
    obtain ⟨next, hnext, hlast⟩ := h.overwritten (.singleton r) hr.symm hrexact
    have hsame : next.key = existing.key :=
      hlast.key_eq (List.forall_mem_append.2 ⟨h.key, List.forall_mem_singleton.2 hr⟩)
    obtain ⟨merged, hmerged, hall⟩ := ih hlast (hsame ▸ hkeys) hexacts
    refine ⟨merged, ?_, List.append_assoc earlier [r] rest ▸ hall⟩
    rw [mergeAll?, List.foldlM_cons, hnext]
    exact hmerged

/-- **Regrouping.** Records of one key without floating-point numbers, merged one after the other,
give the record that has the last of everything given; and so does every other way to group the
merges. -/
theorem overwrite_regroups (hkey : ∀ r ∈ rest, r.key = first.key)
    (hexact : ∀ r ∈ first :: rest, r.fields.All (Value.HasShape .exact)) :
    ∃ merged, mergeAll? headers first rest = .ok merged ∧
      LastGiven headers (first :: rest) merged ∧
      ∀ grouping : Grouping, grouping.records = first :: rest →
        grouping.merged? headers = .ok merged := by
  obtain ⟨merged, hmerged, hlast⟩ :=
    (LastGiven.singleton first).mergeAll hkey (List.forall_mem_cons.1 hexact).2
  refine ⟨merged, hmerged, hlast, fun grouping hrecords => ?_⟩
  have hkeys : ∀ r ∈ first :: rest, r.key = first.key := List.forall_mem_cons.2 ⟨rfl, hkey⟩
  obtain ⟨other, hother, hlast'⟩ := Grouping.lastGiven (hrecords ▸ hkeys) (hrecords ▸ hexact)
  rw [hrecords] at hlast'
  rw [hother, hlast'.unique hlast]

/-- Two updates of a record, merged before they reach it: their errors do not take the place of a
name, but the flag lets them. -/
theorem overwrite_regroups_errors_between :
    let stored : Record := ⟨⟨"a"⟩, "T",
      .ofList [("age", .error ⟨"boom", []⟩), ("name", .string "Ada")],
      .ofList [("name", .ofList [("note", .ofInt64 1)])], none⟩
    let first : Record := ⟨⟨"a"⟩, "T",
      .ofList [("age", .error ⟨"late", []⟩), ("name", .error ⟨"gone", []⟩)],
      .ofList [("name", .ofList [("note", .ofInt64 2), ("seen", .ofInt64 3)])], none⟩
    let second : Record := ⟨⟨"a"⟩, "Person", .ofList [("age", .int 36)], ∅, none⟩
    let grouping : Grouping := .pair (.record stored) (.pair (.record first) (.record second))
    let flagged := Headers.none.flag Headers.errorsReplaceCachedValues
    ((∀ r ∈ [first, second], r.key = stored.key) ∧
      ∀ r ∈ [stored, first, second], r.fields.All (Value.HasShape .exact)) ∧
    (∃ merged, mergeAll? Headers.none stored [first, second] = .ok merged ∧
      grouping.merged? Headers.none = .ok merged ∧ merged.typeName = "Person" ∧
      merged.fields.find? "name" = some (.string "Ada") ∧
      merged.fields.find? "age" = some (.int 36) ∧
      (merged.metadataOf "name").find? "note" = some (.ofInt64 2)) ∧
    ∃ merged, mergeAll? flagged stored [first, second] = .ok merged ∧
      grouping.merged? flagged = .ok merged ∧
      merged.fields.find? "name" = some (.error ⟨"gone", []⟩) := by
  intro stored first second grouping flagged
  have herror (text : String) : (Value.error ⟨text, []⟩).HasShape .exact := ⟨_, .error le_rfl⟩
  have hname : (Value.string "Ada").HasShape .exact := ⟨1, .string "Ada"⟩
  have hkey : ∀ r ∈ [first, second], r.key = stored.key := by decide
  have hpair (x y : String × Value) (hx : x.2.HasShape .exact) (hy : y.2.HasShape .exact) :
      (SortedMap.ofList [x, y]).All (Value.HasShape .exact) :=
    SortedMap.all_ofList (List.forall_mem_cons.2 ⟨hx, List.forall_mem_singleton.2 hy⟩)
  have hexact : ∀ r ∈ [stored, first, second], r.fields.All (Value.HasShape .exact) :=
    List.forall_mem_cons.2 ⟨hpair _ _ (herror _) hname,
      List.forall_mem_cons.2 ⟨hpair _ _ (herror _) (herror _),
        List.forall_mem_singleton.2 (SortedMap.all_empty.insert ⟨1, .int 36⟩)⟩⟩
  obtain ⟨merged, hmerged, hlast, hgrouped⟩ := overwrite_regroups hkey hexact
  obtain ⟨merged', hmerged', hlast', hgrouped'⟩ := overwrite_regroups hkey hexact
  obtain ⟨r, hr, htype, -⟩ := hlast.last
  cases hr
  exact ⟨⟨hkey, hexact⟩, ⟨merged, hmerged, hgrouped grouping rfl, htype, hlast.fields "name",
    hlast.fields "age", hlast.entries "name" "note"⟩,
    merged', hmerged', hgrouped' grouping rfl, hlast'.fields "name"⟩

end Ways
end Merger
end RecordCache
