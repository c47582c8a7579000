import RecordCache.Proofs.Json.Parsed
import RecordCache.Proofs.Record.Shape

/-!
# Records read from any text

Whatever text a row holds, a record that is read from it can be written and read back again: its
numbers are finite, its members are in order, and it nests no deeper than the reader went.

* `Json.nesting_of_ofDocument?`, `Value.within_of_ofDocument?`: the same for metadata entries and
  for values;
* `Row.storable_of_decode`: for records.
-/

namespace RecordCache

namespace Json

theorem exists_of_mapM {α β : Type} {f : α → Option β} {xs : List α} {ys : List β}
    (h : xs.mapM f = some ys) : ∀ y ∈ ys, ∃ x ∈ xs, f x = some y := by
  induction xs generalizing ys with
  | nil =>
    cases h
    exact List.forall_mem_nil _
  | cons x xs ih =>
    rw [List.mapM_cons] at h
    obtain ⟨z, hz, h⟩ := Option.bind_eq_some_iff.1 h
    obtain ⟨zs, hzs, h⟩ := Option.bind_eq_some_iff.1 h
    cases h
    refine List.forall_mem_cons.2 ⟨⟨x, List.mem_cons_self, hz⟩, fun y hy => ?_⟩
    obtain ⟨x', hx', hfx⟩ := ih hzs y hy
    exact ⟨x', List.mem_cons_of_mem x hx', hfx⟩

theorem Document.finite_of_namedMembers? {members : List (Option String × Document)}
    {named : List (String × Document)} (h : namedMembers? members = some named)
    (hfinite : ∀ member ∈ members, member.2.Finite) : ∀ member ∈ named, member.2.Finite := by
  intro member hmember
  obtain ⟨written, hwritten, hname⟩ := exists_of_mapM h member hmember
  obtain ⟨name, -, rfl⟩ := Option.map_eq_some_iff.1 hname
  exact hfinite written hwritten

/-- The entries of an object that was read. -/
theorem Document.forall_entries {α : Type} {read : Document → Option α} {P : α → Prop}
    {named : List (String × Document)} {entries : List (String × α)}
    (h : (named.mapM fun member => (read member.2).map fun value => (member.1, value)) =
      some entries)
    (hread : ∀ member ∈ named, ∀ value, read member.2 = some value → P value) :
    ∀ entry ∈ Entries.ofList entries, P entry.2 := by
  refine Entries.forall_mem_ofList fun entry hentry => ?_
  obtain ⟨member, hmember, hmap⟩ := exists_of_mapM h entry hentry
  obtain ⟨value, hvalue, rfl⟩ := Option.map_eq_some_iff.1 hmap
  exact hread member hmember value hvalue

theorem Document.all_of_dictionary? {α : Type} {read : Document → Option α} {P : α → Prop}
    {document : Document} {m : SortedMap String α} (h : document.dictionary? read = some m)
    (hfinite : document.Finite)
    (hread : ∀ document value, document.Finite → read document = some value → P value) :
    m.All P := by
  cases hfinite with
  | object hmembers =>
    obtain ⟨named, hnamed, h⟩ := Option.bind_eq_some_iff.1 h
    obtain ⟨entries, hentries, h⟩ := Option.bind_eq_some_iff.1 h
    cases h
    have hnamedFinite := finite_of_namedMembers? hnamed hmembers
    have hall := forall_entries hentries fun member hmember value hvalue =>
      hread member.2 value (hnamedFinite member hmember) hvalue
    exact fun k value hfind => hall _ (Entries.mem_of_find? hfind)
  | _ => cases h

theorem Document.finite_of_fields? {names : List String} {document : Document}
    {found : List (Option Document)} (h : document.fields? names = some found)
    (hfinite : document.Finite) : ∀ d, some d ∈ found → d.Finite := by
  intro d hd
  cases hfinite with
  | object hmembers =>
    obtain ⟨named, hnamed, h⟩ := Option.bind_eq_some_iff.1 h
    obtain ⟨name, -, hname⟩ := exists_of_mapM h (some d) hd
    rw [uniqueMember?] at hname
    split at hname
    · cases hname
    · rename_i member hmember
      cases hname
      have hmem : member ∈ named.filter fun member => member.1 = name := by
        rw [hmember]
        exact List.mem_cons_self
      exact finite_of_namedMembers? hnamed hmembers member (List.mem_filter.1 hmem).1
    · cases hname
  | array hitems =>
    rw [fields?] at h
    split at h
    · cases h
      rcases List.mem_append.1 hd with hd | hd
      · obtain ⟨item, hitem, heq⟩ := List.mem_map.1 hd
        cases heq
        exact hitems _ hitem
      · cases List.eq_of_mem_replicate hd
    · cases h
  | _ => cases h

/-- A value that is read nests no deeper than the reader went. -/
theorem nesting_of_ofDocument? {depth : Nat} {document : Document} {j : Json}
    (h : ofDocument? depth document = some j) : j.nesting ≤ depth := by
  induction depth generalizing document j with
  | zero =>
    cases document with
    | null => cases h; exact Nat.le_refl _
    | bool b => cases h; exact Nat.le_refl _
    | number n => obtain ⟨n, -, rfl⟩ := Option.map_eq_some_iff.1 h; exact Nat.le_refl _
    | string s => obtain ⟨s, -, rfl⟩ := Option.map_eq_some_iff.1 h; exact Nat.le_refl _
    | array items => cases h
    | object members => cases h
  | succ depth ih =>
    cases document with
    | null => cases h; exact Nat.zero_le _
    | bool b => cases h; exact Nat.zero_le _
    | number n => obtain ⟨n, -, rfl⟩ := Option.map_eq_some_iff.1 h; exact Nat.zero_le _
    | string s => obtain ⟨s, -, rfl⟩ := Option.map_eq_some_iff.1 h; exact Nat.zero_le _
    | array items =>
      rw [ofDocument?] at h
      obtain ⟨read, hread, rfl⟩ := Option.map_eq_some_iff.1 h
      rw [nesting, Nat.add_le_add_iff_right, itemNesting_le]
      intro item hitem
      obtain ⟨d, -, hd⟩ := exists_of_mapM hread item hitem
      exact ih hd
    | object members =>
      rw [ofDocument?] at h
      obtain ⟨named, hnamed, h⟩ := Option.bind_eq_some_iff.1 h
      obtain ⟨entries, hentries, h⟩ := Option.bind_eq_some_iff.1 h
      cases h
      rw [nesting, Nat.add_le_add_iff_right, memberNesting_le]
      exact Document.forall_entries (P := fun value : Json => value.nesting ≤ depth) hentries
        fun member _ value hvalue => ih hvalue

end Json

theorem FieldMetadata.all_of_ofDocument? {depth : Nat} {document : Json.Document}
    {metadata : FieldMetadata} (h : ofDocument? (depth + 1) document = some metadata)
    (hfinite : document.Finite) : metadata.All fun json => json.nesting ≤ depth :=
  Json.Document.all_of_dictionary? h hfinite fun _ _ _ => Json.nesting_of_ofDocument?

theorem FieldError.nesting_of_ofDocument? {depth : Nat} {document : Json.Document} {e : FieldError}
    (h : ofDocument? depth document = some e) : e.toJson.nesting ≤ depth := by
  cases depth with
  | zero => cases h
  | succ depth =>
    rw [ofDocument?] at h
    obtain ⟨found, -, h⟩ := Option.bind_eq_some_iff.1 h
    split at h
    · rename_i message path
      obtain ⟨text, -, h⟩ := Option.bind_eq_some_iff.1 h
      obtain ⟨names, hnames, h⟩ := Option.bind_eq_some_iff.1 h
      cases h
      cases names with
      | nil => exact Nat.succ_le_succ (Nat.zero_le depth)
      | cons name names =>
        rw [nesting_toJson_cons]
        cases path with
        | none => cases hnames
        | some path =>
          cases depth with
          | zero => cases hnames
          | succ depth => omega
    · cases h

theorem Value.isFinite_floatOfNumber {n : Json.Number}
    (h : ∀ x, n = .float x → x.isFinite = true) : (floatOfNumber n).isFinite = true := by
  cases n with
  | float x => exact h x rfl
  | integer n =>
    have hnat : (Binary64.ofNat64 n.toInt.natAbs).isFinite = true :=
      Binary64.isFinite_ofFloat (Binary64.isFinite_significand _)
    rw [floatOfNumber]
    split
    · exact (Binary64.isFinite_signed true _).trans hnat
    · exact hnat

/-- A field value that is read can be read back again. -/
theorem Value.within_of_ofDocument? {depth : Nat} {document : Json.Document} {v : Value}
    (h : ofDocument? depth document = some v) (hfinite : document.Finite) :
    v.Within .stored depth := by
  induction depth using Nat.strongRecOn generalizing document v with
  | ind depth ih =>
    -- the cases are those of the reader: `null`, then the kinds by their tags
    unfold ofDocument? at h
    split at h
    · cases h
      exact .null
    · rename_i depth kind content
      cases hfinite with
      | object hmembers =>
      have hcontent := hmembers _ List.mem_cons_self
      dsimp only at hcontent
      split at h
      · cases h
        exact .null
      · obtain ⟨b, -, rfl⟩ := Option.map_eq_some_iff.1 h
        exact .boolean b
      · obtain ⟨n, -, rfl⟩ := Option.map_eq_some_iff.1 h
        exact .int n
      · obtain ⟨n, hn, rfl⟩ := Option.map_eq_some_iff.1 h
        -- a number read from the text is finite, whether it was written as a float or not
        refine .float (isFinite_floatOfNumber fun x hx => ?_)
        subst hx
        cases hcontent with
        | number hnumber => exact hnumber x hn
        | _ => cases hn
      · obtain ⟨s, -, rfl⟩ := Option.map_eq_some_iff.1 h
        exact .string s
      · obtain ⟨text, -, rfl⟩ := Option.map_eq_some_iff.1 h
        exact .reference _
      · obtain ⟨items, hitems, rfl⟩ := Option.map_eq_some_iff.1 h
        cases hcontent with
        | array hall =>
        refine .list fun item hitem => ?_
        obtain ⟨d, hd, hread⟩ := Json.exists_of_mapM hitems item hitem
        exact ih _ (by omega) hread (hall d hd)
      · obtain ⟨named, hnamed, h⟩ := Option.bind_eq_some_iff.1 h
        obtain ⟨entries, hentries, h⟩ := Option.bind_eq_some_iff.1 h
        cases h
        cases hcontent with
        | object hall =>
        have hnamedFinite := Json.Document.finite_of_namedMembers? hnamed hall
        -- of two members of one name the last is kept, and that was read as well
        refine .object (Entries.ascending_ofList _) ?_
        exact Json.Document.forall_entries hentries fun member hmember value hvalue =>
          ih _ (by omega) hvalue (hnamedFinite member hmember)
      · obtain ⟨e, he, rfl⟩ := Option.map_eq_some_iff.1 h
        exact .error (FieldError.nesting_of_ofDocument? he)
      · cases h
    · cases h

/-- Whatever text a row holds, the record read from it can be written and read back again. -/
theorem Row.storable_of_decode {row : Row} {r : Record} (h : row.decode = .ok r) :
    r.Storable .stored := by
  obtain ⟨blob, hparse, rfl⟩ := decode_eq_ok.1 h
  obtain ⟨document, hdocument, hblob⟩ := Option.bind_eq_some_iff.1 hparse
  have hfinite := Json.Document.finite_of_parse? hdocument
  rw [show Json.depthLimit = 126 + 1 from rfl, Blob.ofDocument?] at hblob
  obtain ⟨found, hfound, hblob⟩ := Option.bind_eq_some_iff.1 hblob
  have hparts := Json.Document.finite_of_fields? hfound hfinite
  split at hblob
  · rename_i fields metadata mutation
    obtain ⟨values, hvalues, hblob⟩ := Option.bind_eq_some_iff.1 hblob
    obtain ⟨entries, hentries, hblob⟩ := Option.bind_eq_some_iff.1 hblob
    obtain ⟨id, -, hblob⟩ := Option.bind_eq_some_iff.1 hblob
    cases hblob
    constructor
    · exact Json.Document.all_of_dictionary? hvalues (hparts _ List.mem_cons_self)
        fun _ _ hd hread => Value.within_of_ofDocument? hread hd
    · cases metadata with
      | none =>
        cases hentries
        exact SortedMap.all_empty
      | some metadata =>
        have hmetadata := hparts metadata (List.mem_cons_of_mem _ List.mem_cons_self)
        exact Json.Document.all_of_dictionary? hentries hmetadata
          fun _ _ hd hread => FieldMetadata.all_of_ofDocument? hread hd
  · cases hblob

end RecordCache
