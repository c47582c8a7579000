import RecordCache.Proofs.Merge

/-!
# Stretches of a connection

A client fetches pages of one long list of edges, in any order: onwards from the last cursor it has
stored, backwards from the first, or anywhere else. The field always holds one stretch of the list.

* `Stretch` is a range of places in the list, `Page` a range with what it was requested by, and
  `Stretch.extend` what a page makes of the stored range;
* `Shows`: a field holds the edges of a stretch, and the cursors of its first and its last edge;
* `Shows.merge`: one page that arrives, with `merge_after` and `merge_before`;
* `Holds.run`: after any pages the field shows the stretch that they make;
* `pages_stay_contiguous`: so it shows a stretch of the list, and a page after its end or before its
  start extends it by the edges of the page.
-/

namespace RecordCache
namespace Connection

/-- An edge as it stands in a list of edges, and its cursor. -/
structure Edge where
  value : Value
  cursor : String

/-- The places of a list from `start` to before `stop`. -/
structure Stretch where
  start : Nat
  stop : Nat

/-- What a page is requested by: a cursor it comes after, one it comes before, or neither. -/
inductive Request
  | whole
  | after
  | before

/-- A stretch and what it was requested by. -/
structure Page extends Stretch where
  request : Request

namespace Stretch

/-- The edges of a stretch. -/
def edges (s : Stretch) (list : List Edge) : List Value :=
  (list.extract s.start s.stop).map Edge.value

/-- What a page makes of the stored stretch: a longer one if it goes on at the end or leads up to
the start, as it was requested, and otherwise the page. -/
def extend (stored : Stretch) (page : Page) : Stretch :=
  match page.request with
  | .after => if page.start = stored.stop then ⟨stored.start, page.stop⟩ else page.toStretch
  | .before => if page.stop = stored.start then ⟨page.start, stored.stop⟩ else page.toStretch
  | .whole => page.toStretch

/-- Two stretches of which one goes on where the other ends are one. -/
theorem edges_append {s t : Stretch} (list : List Edge) (hs : s.start ≤ s.stop)
    (ht : t.start ≤ t.stop) (hnext : t.start = s.stop) :
    s.edges list ++ t.edges list = edges ⟨s.start, t.stop⟩ list := by
  have hextract : list.extract s.start t.stop =
      list.extract s.start s.stop ++ list.extract s.stop t.stop := by
    rw [List.extract_eq_take_drop, List.extract_eq_take_drop, List.extract_eq_take_drop,
      show t.stop - s.start = (s.stop - s.start) + (t.stop - s.stop) by omega, List.take_add,
      List.drop_drop, Nat.add_sub_cancel' hs]
  rw [edges, edges, edges, hnext, hextract, List.map_append]

end Stretch

/-- The field holds the edges of a stretch of the list that is not empty, and the cursors of the
first and the last of them. -/
structure Shows (list : List Edge) (s : Stretch) (info : FieldInfo) : Prop where
  nonempty : s.start < s.stop
  value : ∃ members, info.value = .object members ∧
    Entries.find? Connection.edges members = some (.list (s.edges list))
  first : ∃ edge, list[s.start]? = some edge ∧
    info.metadata.string? startCursor = some edge.cursor
  last : ∃ edge, list[s.stop - 1]? = some edge ∧
    info.metadata.string? endCursor = some edge.cursor

/-- The metadata say what the page was requested by, and nothing else of the kind. -/
def Page.IsRequested (list : List Edge) (page : Page) (metadata : FieldMetadata) : Prop :=
  match page.request with
  | .whole => metadata.string? before = none ∧ metadata.string? after = none
  | .after => metadata.string? before = none ∧ 0 < page.start ∧
      ∃ edge, list[page.start - 1]? = some edge ∧ metadata.string? after = some edge.cursor
  | .before => metadata.string? after = none ∧
      ∃ edge, list[page.stop]? = some edge ∧ metadata.string? before = some edge.cursor

/-- A page of the list, as it arrives. -/
structure IsPage (list : List Edge) (page : Page) (info : FieldInfo) : Prop where
  shows : Shows list page.toStretch info
  requested : page.IsRequested list info.metadata

section Field

variable {list : List Edge} {s t : Stretch} {page : Page} {info old arriving : FieldInfo}

theorem edgesOf_eq {members : Members} {items : List Value}
    (h : Entries.find? edges members = some (.list items)) : edgesOf members = items := by
  rw [edgesOf, h]
  rfl

/-- The metadata under the page may be any. -/
theorem Shows.overlay (h : Shows list s info) (stored : FieldMetadata) :
    Shows list s ⟨info.value, stored.overlay info.metadata⟩ := by
  have hkept {name : String} {text : String} (hname : info.metadata.string? name = some text) :
      FieldMetadata.string? (stored.overlay info.metadata) name = some text := by
    obtain ⟨entry, hentry, htext⟩ := Option.bind_eq_some_iff.1 hname
    rw [FieldMetadata.string?, SortedMap.find?_overlay, hentry]
    exact htext
  obtain ⟨a, ha, hfirst⟩ := h.first
  obtain ⟨b, hb, hlast⟩ := h.last
  exact ⟨h.nonempty, h.value, ⟨a, ha, hkept hfirst⟩, ⟨b, hb, hkept hlast⟩⟩

/-- An object with the edges of a stretch, and metadata with the cursors at its ends. -/
theorem shows_joined {a b : Edge} (hnonempty : t.start < t.stop) (ha : list[t.start]? = some a)
    (hb : list[t.stop - 1]? = some b) (members : Members) (metadata : FieldMetadata) :
    Shows list t ⟨.object (Entries.insert edges (.list (t.edges list)) members),
      (metadata.insert startCursor (.string a.cursor)).insert endCursor (.string b.cursor)⟩ where
  nonempty := hnonempty
  value := ⟨_, rfl, (Entries.find?_insert _ _ _ _).trans (if_pos Std.ReflCmp.compare_self)⟩
  first := by
    refine ⟨a, ha, ?_⟩
    rw [FieldMetadata.string?, SortedMap.find?_insert_eq, if_neg (by decide),
      SortedMap.find?_insert_self]
    rfl
  last := by
    refine ⟨b, hb, ?_⟩
    rw [FieldMetadata.string?, SortedMap.find?_insert_self]
    rfl

/-- Cursors tell the places apart. -/
theorem cursor_eq_iff (hdistinct : (list.map Edge.cursor).Nodup) {i j : Nat} {a b : Edge}
    (ha : list[i]? = some a) (hb : list[j]? = some b) : a.cursor = b.cursor ↔ i = j := by
  constructor
  · intro hcursor
    refine (List.getElem?_inj (i := i) (j := j) ?_ hdistinct).1 ?_
    · rw [List.length_map]
      exact (List.getElem?_eq_some_iff.1 ha).1
    · rw [List.getElem?_map, List.getElem?_map, ha, hb]
      exact congrArg some hcursor
  · rintro rfl
    exact congrArg Edge.cursor (Option.some.inj (ha.symm.trans hb))

/-- A page that comes after a cursor goes on where the stretch ends, or takes its place. -/
theorem Shows.merge_after (hdistinct : (list.map Edge.cursor).Nodup) (hold : Shows list s old)
    (hnew : Shows list t arriving) (hbefore : arriving.metadata.string? before = none)
    (hpositive : 0 < t.start) {edge : Edge} (hedge : list[t.start - 1]? = some edge)
    (hafter : arriving.metadata.string? after = some edge.cursor) :
    Shows list (if t.start = s.stop then ⟨s.start, t.stop⟩ else t) (merge old arriving) := by
  obtain ⟨stretch, hstretch, hedges⟩ := hold.value
  obtain ⟨members, hmembers, hnewEdges⟩ := hnew.value
  obtain ⟨a, ha, hfirst⟩ := hold.first
  obtain ⟨b, hb, hlast⟩ := hold.last
  obtain ⟨c, hc, hnewFirst⟩ := hnew.first
  obtain ⟨d, hd, hnewLast⟩ := hnew.last
  have hnonempty := hold.nonempty
  have hnewNonempty := hnew.nonempty
  have hplace : edge.cursor = b.cursor ↔ t.start = s.stop :=
    (cursor_eq_iff hdistinct hedge hb).trans (by omega)
  simp only [Connection.merge, hbefore, hafter, hfirst, hlast, hnewFirst, hnewLast, hstretch,
    hmembers, edgesOf_eq hedges, edgesOf_eq hnewEdges, Option.isNone_some, Bool.and_false,
    Bool.false_eq_true, if_false, Option.some.injEq, hplace, reduceCtorEq]
  by_cases hnext : t.start = s.stop
  · have hlonger : s.start < t.stop := by omega
    simp only [if_pos hnext, Stretch.edges_append list hnonempty.le hnewNonempty.le hnext]
    exact shows_joined (t := ⟨s.start, t.stop⟩) hlonger ha hd _ _
  · simp only [if_neg hnext]
    exact shows_joined hnewNonempty hc hd _ _

/-- A page that comes before a cursor leads up to where the stretch starts, or takes its place. -/
theorem Shows.merge_before (hdistinct : (list.map Edge.cursor).Nodup) (hold : Shows list s old)
    (hnew : Shows list t arriving) (hafter : arriving.metadata.string? after = none)
    {edge : Edge} (hedge : list[t.stop]? = some edge)
    (hbefore : arriving.metadata.string? before = some edge.cursor) :
    Shows list (if t.stop = s.start then ⟨t.start, s.stop⟩ else t) (merge old arriving) := by
  obtain ⟨stretch, hstretch, hedges⟩ := hold.value
  obtain ⟨members, hmembers, hnewEdges⟩ := hnew.value
  obtain ⟨a, ha, hfirst⟩ := hold.first
  obtain ⟨b, hb, hlast⟩ := hold.last
  obtain ⟨c, hc, hnewFirst⟩ := hnew.first
  obtain ⟨d, hd, hnewLast⟩ := hnew.last
  have hnonempty := hold.nonempty
  have hnewNonempty := hnew.nonempty
  have hplace : edge.cursor = a.cursor ↔ t.stop = s.start := cursor_eq_iff hdistinct hedge ha
  simp only [Connection.merge, hbefore, hafter, hfirst, hlast, hnewFirst, hnewLast, hstretch,
    hmembers, edgesOf_eq hedges, edgesOf_eq hnewEdges, Option.isNone_some, Bool.false_and,
    Bool.false_eq_true, if_false, Option.some.injEq, hplace, reduceCtorEq]
  by_cases hnext : t.stop = s.start
  · have hlonger : t.start < s.stop := by omega
    simp only [if_pos hnext, Stretch.edges_append list hnewNonempty.le hnonempty.le hnext.symm]
    exact shows_joined (t := ⟨t.start, s.stop⟩) hlonger hc hb _ _
  · simp only [if_neg hnext]
    exact shows_joined hnewNonempty hc hd _ _

/-- **One page.** The merged field shows what the page makes of the stored stretch. -/
theorem Shows.merge (hdistinct : (list.map Edge.cursor).Nodup) (hold : Shows list s old)
    (hpage : IsPage list page arriving) :
    Shows list (s.extend page) (merge old arriving) := by
  have hrequested := hpage.requested
  rw [Page.IsRequested] at hrequested
  rw [Stretch.extend]
  split at hrequested <;> rename_i hrequest <;> rw [hrequest]
  · -- Not a page: what arrives is stored.
    obtain ⟨hbefore, hafter⟩ := hrequested
    have hmerge : Connection.merge old arriving = arriving := by
      simp only [Connection.merge, hbefore, hafter, Option.isNone_none, Bool.and_self, if_true]
    rw [hmerge]
    exact hpage.shows
  · obtain ⟨hbefore, hpositive, edge, hedge, hafter⟩ := hrequested
    exact hold.merge_after hdistinct hpage.shows hbefore hpositive hedge hafter
  · obtain ⟨hafter, edge, hedge, hbefore⟩ := hrequested
    exact hold.merge_before hdistinct hpage.shows hafter hedge hbefore

/-- A page that was requested after the last edge goes on where the stretch ends. -/
theorem IsPage.extend_after (hdistinct : (list.map Edge.cursor).Nodup) (hold : Shows list s old)
    (hpage : IsPage list page arriving)
    (hcursor : arriving.metadata.string? after = old.metadata.string? endCursor) :
    page.start = s.stop ∧ s.extend page = ⟨s.start, page.stop⟩ := by
  obtain ⟨b, hb, hlast⟩ := hold.last
  rw [hlast] at hcursor
  have hrequested := hpage.requested
  rw [Page.IsRequested] at hrequested
  split at hrequested
  · exact nomatch hrequested.2.symm.trans hcursor
  · rename_i hrequest
    obtain ⟨-, hpositive, edge, hedge, hafter⟩ := hrequested
    have hsame : edge.cursor = b.cursor := Option.some.inj (hafter.symm.trans hcursor)
    have hplace := (cursor_eq_iff hdistinct hedge hb).1 hsame
    have hnonempty := hold.nonempty
    have hnext : page.start = s.stop := by omega
    rw [Stretch.extend, hrequest]
    exact ⟨hnext, if_pos hnext⟩
  · exact nomatch hrequested.1.symm.trans hcursor

/-- A page that was requested before the first edge leads up to the start of the stretch. -/
theorem IsPage.extend_before (hdistinct : (list.map Edge.cursor).Nodup) (hold : Shows list s old)
    (hpage : IsPage list page arriving)
    (hcursor : arriving.metadata.string? before = old.metadata.string? startCursor) :
    page.stop = s.start ∧ s.extend page = ⟨page.start, s.stop⟩ := by
  obtain ⟨a, ha, hfirst⟩ := hold.first
  rw [hfirst] at hcursor
  have hrequested := hpage.requested
  rw [Page.IsRequested] at hrequested
  split at hrequested
  · exact nomatch hrequested.1.symm.trans hcursor
  · exact nomatch hrequested.1.symm.trans hcursor
  · rename_i hrequest
    obtain ⟨-, edge, hedge, hbefore⟩ := hrequested
    have hsame : edge.cursor = a.cursor := Option.some.inj (hbefore.symm.trans hcursor)
    have hnext := (cursor_eq_iff hdistinct hedge ha).1 hsame
    rw [Stretch.extend, hrequest]
    exact ⟨hnext, if_pos hnext⟩

end Field

/-- The field of the record shows the stretch. -/
def ShownBy (list : List Edge) (field : String) (s : Stretch) (r : Record) : Prop :=
  ∃ value, r.fields.find? field = some value ∧ Shows list s ⟨value, r.metadataOf field⟩

/-- The edges in a field, none when it holds no object. -/
def edgesAt (field : String) (r : Record) : List Value :=
  (((r.fields.find? field).bind Value.object?).map edgesOf).getD []

/-- A page, the record that brings it, and the headers with which it is merged. -/
structure Fetch where
  page : Page
  record : Record
  headers : Headers

namespace Fetch

/-- The field of the record is the page. -/
def Brings (list : List Edge) (field : String) (fetch : Fetch) : Prop :=
  ∃ value, fetch.record.fields.find? field = some value ∧
    IsPage list fetch.page ⟨value, fetch.record.metadataOf field⟩

/-- What is stored when the record arrives: it is merged with the stored one, if there is one. -/
def store (stored : Option Record) (fetch : Fetch) : Record :=
  stored.elim fetch.record fun existing =>
    (Merger.connection.merge existing fetch.record fetch.headers).record

/-- What is stored when the records have arrived one after the other. -/
def run (stored : Option Record) (fetches : List Fetch) : Option Record :=
  fetches.foldl (fun stored fetch => some (fetch.store stored)) stored

end Fetch

/-- The stretch that a page makes of the stored one, if there is one. -/
def Page.extend (stored : Option Stretch) (page : Page) : Stretch :=
  stored.elim page.toStretch fun s => s.extend page

/-- The stretch that pages make of the stored one, one after the other. -/
def Page.extendAll (stored : Option Stretch) (pages : List Page) : Option Stretch :=
  pages.foldl (fun stored page => some (page.extend stored)) stored

/-- The record shows the stretch; without a stretch, it is missing or does not have the field. -/
def Holds (list : List Edge) (field : String) (stored : Option Record) : Option Stretch → Prop
  | none => ∀ r, stored = some r → r.fields.find? field = none
  | some s => ∃ r, stored = some r ∧ ShownBy list field s r

section Run

variable {list : List Edge} {field : String} {s : Stretch} {current : Option Stretch}
  {r : Record} {stored : Option Record} {fetch : Fetch}

theorem ShownBy.edgesAt_eq (h : ShownBy list field s r) : edgesAt field r = s.edges list := by
  obtain ⟨value, hvalue, hshows⟩ := h
  obtain ⟨members, hmembers, hedges⟩ := hshows.value
  rw [edgesAt, hvalue]
  show ((Value.object? value).map edgesOf).getD [] = _
  rw [show value = .object members from hmembers]
  exact edgesOf_eq hedges

/-- **One fetch.** What is stored shows what the page makes of the stretch before. -/
theorem Holds.store (hdistinct : (list.map Edge.cursor).Nodup) (hbrings : fetch.Brings list field)
    (h : Holds list field stored current) :
    ShownBy list field (fetch.page.extend current) (fetch.store stored) := by
  obtain ⟨value, hvalue, hpage⟩ := hbrings
  cases stored with
  | none =>
    cases current with
    | none => exact ⟨value, hvalue, hpage.shows⟩
    | some s => exact nomatch h.choose_spec.1
  | some existing =>
    obtain ⟨hstored, hmetadata⟩ : (fetch.store (some existing)).fields.find? field = some _ ∧
        (fetch.store (some existing)).metadataOf field = _ := Merger.byField_arrives merge hvalue
    refine ⟨_, hstored, ?_⟩
    rw [hmetadata, Merger.mergeField]
    cases current with
    | none =>
      rw [h existing rfl]
      exact hpage.shows.overlay _
    | some s =>
      obtain ⟨r, hr, old, hold, hshows⟩ := h
      cases hr
      rw [hold]
      exact (hshows.merge hdistinct hpage).overlay _

theorem ShownBy.store (hdistinct : (list.map Edge.cursor).Nodup) (h : ShownBy list field s r)
    (hbrings : fetch.Brings list field) :
    ShownBy list field (s.extend fetch.page) (fetch.store (some r)) := by
  have hholds : Holds list field (some r) (some s) := ⟨r, rfl, h⟩
  exact hholds.store hdistinct hbrings

theorem Fetch.Brings.shownBy (h : fetch.Brings list field) :
    ShownBy list field fetch.page.toStretch fetch.record := by
  obtain ⟨value, hvalue, hpage⟩ := h
  exact ⟨value, hvalue, hpage.shows⟩

/-- A page after the last edge is appended. -/
theorem ShownBy.append (hdistinct : (list.map Edge.cursor).Nodup) (h : ShownBy list field s r)
    (hbrings : fetch.Brings list field)
    (hcursor : (fetch.record.metadataOf field).string? after =
      (r.metadataOf field).string? endCursor) :
    ShownBy list field ⟨s.start, fetch.page.stop⟩ (fetch.store (some r)) ∧
      edgesAt field (fetch.store (some r)) = edgesAt field r ++ edgesAt field fetch.record := by
  have hlater := h.store hdistinct hbrings
  obtain ⟨_, _, hpage⟩ := id hbrings
  obtain ⟨_, _, hshows⟩ := id h
  obtain ⟨hnext, hextend⟩ := hpage.extend_after hdistinct hshows hcursor
  rw [hextend] at hlater
  refine ⟨hlater, ?_⟩
  rw [hlater.edgesAt_eq, h.edgesAt_eq, hbrings.shownBy.edgesAt_eq]
  exact (Stretch.edges_append list hshows.nonempty.le hpage.shows.nonempty.le hnext).symm

/-- A page before the first edge is prepended. -/
theorem ShownBy.prepend (hdistinct : (list.map Edge.cursor).Nodup) (h : ShownBy list field s r)
    (hbrings : fetch.Brings list field)
    (hcursor : (fetch.record.metadataOf field).string? before =
      (r.metadataOf field).string? startCursor) :
    ShownBy list field ⟨fetch.page.start, s.stop⟩ (fetch.store (some r)) ∧
      edgesAt field (fetch.store (some r)) = edgesAt field fetch.record ++ edgesAt field r := by
  have hlater := h.store hdistinct hbrings
  obtain ⟨_, _, hpage⟩ := id hbrings
  obtain ⟨_, _, hshows⟩ := id h
  obtain ⟨hnext, hextend⟩ := hpage.extend_before hdistinct hshows hcursor
  rw [hextend] at hlater
  refine ⟨hlater, ?_⟩
  rw [hlater.edgesAt_eq, h.edgesAt_eq, hbrings.shownBy.edgesAt_eq]
  exact (Stretch.edges_append list hpage.shows.nonempty.le hshows.nonempty.le hnext.symm).symm

/-- **Any fetches.** What is stored at the end shows the stretch that the pages make. -/
theorem Holds.run (hdistinct : (list.map Edge.cursor).Nodup) {fetches : List Fetch}
    (hbrings : ∀ fetch ∈ fetches, fetch.Brings list field) (h : Holds list field stored current) :
    Holds list field (Fetch.run stored fetches)
      (Page.extendAll current (fetches.map Fetch.page)) := by
  induction fetches generalizing stored current with
  | nil => exact h
  | cons fetch fetches ih =>
    obtain ⟨hfetch, hrest⟩ := List.forall_mem_cons.1 hbrings
    exact ih hrest ⟨_, rfl, h.store hdistinct hfetch⟩

/-- **Pages stay contiguous.** Pages of a list whose cursors are distinct arrive in a field that is
not there at first. Then the field shows one stretch of the list, the one that the pages make. A
page that was requested after its last edge extends it to the end of the page, one that was
requested before its first edge to the start of the page, and the edges stored before stay as they
were. -/
theorem pages_stay_contiguous (hdistinct : (list.map Edge.cursor).Nodup)
    (habsent : ∀ r, stored = some r → r.fields.find? field = none) {fetches : List Fetch}
    (hbrings : ∀ fetch ∈ fetches, fetch.Brings list field) (hsome : fetches ≠ []) :
    ∃ r s, Fetch.run stored fetches = some r ∧
      Page.extendAll none (fetches.map Fetch.page) = some s ∧ ShownBy list field s r ∧
      ∀ next : Fetch, next.Brings list field →
        let extended := next.store (some r)
        ((next.record.metadataOf field).string? after = (r.metadataOf field).string? endCursor →
          ShownBy list field ⟨s.start, next.page.stop⟩ extended ∧
            edgesAt field extended = edgesAt field r ++ edgesAt field next.record) ∧
        ((next.record.metadataOf field).string? before = (r.metadataOf field).string? startCursor →
          ShownBy list field ⟨next.page.start, s.stop⟩ extended ∧
            edgesAt field extended = edgesAt field next.record ++ edgesAt field r) := by
  have habsent : Holds list field stored none := habsent
  have hholds := habsent.run hdistinct hbrings
  obtain ⟨s, hs⟩ : ∃ s, Page.extendAll none (fetches.map Fetch.page) = some s := by
    obtain ⟨earlier, last, rfl⟩ := (List.eq_nil_or_concat' fetches).resolve_left hsome
    rw [Page.extendAll, List.map_append, List.foldl_append]
    exact ⟨_, rfl⟩
  rw [hs] at hholds
  obtain ⟨r, hr, hshown⟩ := hholds
  exact ⟨r, s, hr, hs, hshown, fun next hnext =>
    ⟨ShownBy.append hdistinct hshown hnext, ShownBy.prepend hdistinct hshown hnext⟩⟩

end Run

/-- The middle page of three, then the one after it, and then the one before both. -/
theorem pages_stay_contiguous_three_pages :
    let list : List Edge := [⟨.int 0, "a"⟩, ⟨.int 1, "b"⟩, ⟨.int 2, "c"⟩]
    let fetch (page : Page) (edge : Edge) (requested : FieldMetadata) : Fetch :=
      { page
        record :=
          { key := ⟨"q"⟩
            typeName := "Query"
            fields := (∅ : SortedMap String Value).insert "f"
              (.object [(edges, .list [edge.value])])
            metadata := (∅ : SortedMap String FieldMetadata).insert "f"
              ((requested.insert startCursor (.string edge.cursor)).insert endCursor
                (.string edge.cursor))
            mutation := none }
        headers := Headers.none }
    let middle := fetch ⟨⟨1, 2⟩, .whole⟩ ⟨.int 1, "b"⟩ ∅
    let onwards := fetch ⟨⟨2, 3⟩, .after⟩ ⟨.int 2, "c"⟩
      ((∅ : FieldMetadata).insert after (.string "b"))
    let back := fetch ⟨⟨0, 1⟩, .before⟩ ⟨.int 0, "a"⟩
      ((∅ : FieldMetadata).insert before (.string "b"))
    ((list.map Edge.cursor).Nodup ∧ ∀ fetch ∈ [middle, onwards, back], fetch.Brings list "f") ∧
      ∃ r, Fetch.run none [middle, onwards] = some r ∧ ShownBy list "f" ⟨1, 3⟩ r ∧
        ShownBy list "f" ⟨0, 3⟩ (back.store (some r)) ∧
        edgesAt "f" (back.store (some r)) = edgesAt "f" back.record ++ edgesAt "f" r := by
  intro list fetch middle onwards back
  have hdistinct : (list.map Edge.cursor).Nodup := by decide
  have hmiddle : middle.Brings list "f" :=
    ⟨_, rfl, ⟨by decide, ⟨_, rfl, rfl⟩, ⟨_, rfl, rfl⟩, ⟨_, rfl, rfl⟩⟩, ⟨rfl, rfl⟩⟩
  have honwards : onwards.Brings list "f" :=
    ⟨_, rfl, ⟨by decide, ⟨_, rfl, rfl⟩, ⟨_, rfl, rfl⟩, ⟨_, rfl, rfl⟩⟩,
      ⟨rfl, by decide, _, rfl, rfl⟩⟩
  have hback : back.Brings list "f" :=
    ⟨_, rfl, ⟨by decide, ⟨_, rfl, rfl⟩, ⟨_, rfl, rfl⟩, ⟨_, rfl, rfl⟩⟩, ⟨rfl, _, rfl, rfl⟩⟩
  have hpair : ∀ fetch ∈ [middle, onwards], fetch.Brings list "f" :=
    List.forall_mem_cons.2 ⟨hmiddle, List.forall_mem_singleton.2 honwards⟩
  have hall : ∀ fetch ∈ [middle, onwards, back], fetch.Brings list "f" :=
    List.forall_mem_append.2 ⟨hpair, List.forall_mem_singleton.2 hback⟩
  have habsent : ∀ r : Record, none = some r → r.fields.find? "f" = none :=
    fun _ hr => nomatch hr
  obtain ⟨r, s, hr, hs, hshown, hnext⟩ :=
    pages_stay_contiguous hdistinct habsent hpair (List.cons_ne_nil _ _)
  obtain rfl : ⟨1, 3⟩ = s := Option.some.inj hs
  have hcursor : (back.record.metadataOf "f").string? before =
      (r.metadataOf "f").string? startCursor := by
    obtain ⟨_, _, hshows⟩ := id hshown
    obtain ⟨edge, hedge, hfirst⟩ := hshows.first
    obtain rfl : ⟨.int 1, "b"⟩ = edge := Option.some.inj hedge
    exact hfirst.symm
  obtain ⟨hlonger, hedges⟩ := (hnext back hback).2 hcursor
  exact ⟨⟨hdistinct, hall⟩, r, hr, hshown, hlonger, hedges⟩

end Connection
end RecordCache
