import RecordCache.Proofs.Json.Reader
import RecordCache.Value.Codec

/-!
# Reading field values back

A printed field value is read back if it nests no deeper than the reader goes and all its
floating-point numbers are finite.

* `Value.induction`: what holds of a value when it holds of all inside holds of every value;
* `Value.isFinite` says that every floating-point number inside is finite;
* `Value.reread` is the value that a reader makes of the text of a value;
* `Value.ofDocument?_toJson`: a reader reads this value, or nothing.
-/

namespace RecordCache

namespace FieldError

/-- The path of an error is read back. -/
theorem list?_path (path : List String) :
    (Json.document (.array (path.map .string))).list? Json.Document.string? = some path := by
  rw [Json.document, Json.documentItems_eq, List.map_map]
  show (path.map (Json.document ∘ Json.string)).mapM Json.Document.string? = some path
  induction path with
  | nil => rfl
  | cons name path ih =>
    rw [List.map_cons, List.mapM_cons, ih]
    rfl

theorem itemNesting_strings (path : List String) :
    Json.itemNesting (path.map .string) = 0 := by
  induction path with
  | nil => rfl
  | cons name path ih =>
    rw [List.map_cons, Json.itemNesting, ih]
    rfl

theorem nesting_toJson_cons (message name : String) (path : List String) :
    (toJson ⟨message, name :: path⟩).nesting = 2 := by
  show max 0 (max (Json.itemNesting ((name :: path).map .string) + 1) 0) + 1 = 2
  rw [itemNesting_strings]
  rfl

theorem fields?_toJson (message : String) (path : Json.Document) :
    (Json.Document.object [(some "message", .string (some message)), (some "path", path)]).fields?
        ["message", "path"] = some [some (.string (some message)), some path] := rfl

/-- An error is read back, unless its path is too deep. -/
theorem ofDocument?_toJson (e : FieldError) (depth : Nat) :
    ofDocument? depth e.toJson.document =
      if e.toJson.nesting ≤ depth then some e else none := by
  obtain ⟨message, path⟩ := e
  cases depth with
  | zero => rfl
  | succ depth =>
    cases path with
    | nil =>
      have hnesting : (toJson ⟨message, []⟩).nesting = 1 := rfl
      rw [hnesting, if_pos (by omega)]
      rfl
    | cons name path =>
      have hdocument : (toJson ⟨message, name :: path⟩).document =
          .object [(some "message", .string (some message)),
            (some "path", Json.document (.array ((name :: path).map .string)))] := rfl
      rw [nesting_toJson_cons, hdocument, ofDocument?, fields?_toJson]
      have hpath : pathOfDocument? depth
          (some (Json.document (.array ((name :: path).map .string)))) =
            if 2 ≤ depth + 1 then some (name :: path) else none := by
        cases depth with
        | zero => rfl
        | succ depth =>
          rw [pathOfDocument?, list?_path, if_pos (by omega)]
      show ((pathOfDocument? depth (some (Json.document (.array _)))).bind fun path =>
        some (⟨message, path⟩ : FieldError)) = _
      rw [hpath]
      split <;> rfl

end FieldError

namespace Value

/-- Induction over a value with the hypothesis for each item and each member. -/
@[elab_as_elim]
theorem induction {P : Value → Prop} (null : P null) (boolean : ∀ b, P (boolean b))
    (int : ∀ n, P (int n)) (float : ∀ x, P (float x)) (string : ∀ s, P (string s))
    (reference : ∀ key, P (reference key))
    (list : ∀ items, (∀ item ∈ items, P item) → P (list items))
    (object : ∀ members, (∀ member ∈ members, P member.2) → P (object members))
    (error : ∀ e, P (error e)) (v : Value) : P v :=
  Value.rec null boolean int float string reference list object error (List.forall_mem_nil _)
    (fun _ _ hitem hitems => List.forall_mem_cons.2 ⟨hitem, hitems⟩) (List.forall_mem_nil _)
    (fun _ _ hmember hmembers => List.forall_mem_cons.2 ⟨hmember, hmembers⟩) (fun _ _ h => h) v

mutual

/-- Whether every floating-point number in the value is finite. -/
def isFinite : Value → Bool
  | float x => x.isFinite
  | list items => itemsFinite items
  | object members => membersFinite members
  | _ => true

/-- Whether every floating-point number in the items is finite. -/
def itemsFinite : List Value → Bool
  | [] => true
  | item :: items => item.isFinite && itemsFinite items

/-- Whether every floating-point number in the members is finite. -/
def membersFinite : List (String × Value) → Bool
  | [] => true
  | (_, value) :: members => value.isFinite && membersFinite members

end

mutual

/-- The value that a reader makes of the text of a value. -/
def reread : Value → Value
  | float x => float x.reread
  | list items => list (rereadItems items)
  | object members => object (Entries.ofList (rereadMembers members))
  | value => value

/-- The items as they are read. -/
def rereadItems : List Value → List Value
  | [] => []
  | item :: items => item.reread :: rereadItems items

/-- The members with their values as they are read. -/
def rereadMembers : List (String × Value) → List (String × Value)
  | [] => []
  | (name, value) :: members => (name, value.reread) :: rereadMembers members

end

theorem itemsFinite_iff {items : List Value} :
    itemsFinite items = true ↔ ∀ item ∈ items, item.isFinite = true := by
  induction items with
  | nil => simp [itemsFinite]
  | cons item items ih => rw [itemsFinite, Bool.and_eq_true, ih, List.forall_mem_cons]

theorem membersFinite_iff {members : List (String × Value)} :
    membersFinite members = true ↔ ∀ member ∈ members, member.2.isFinite = true := by
  induction members with
  | nil => simp [membersFinite]
  | cons member members ih => rw [membersFinite, Bool.and_eq_true, ih, List.forall_mem_cons]

theorem rereadItems_eq (items : List Value) : rereadItems items = items.map reread := by
  induction items with
  | nil => rfl
  | cons item items ih => rw [rereadItems, ih, List.map_cons]

theorem rereadMembers_eq (members : List (String × Value)) :
    rereadMembers members = members.map fun member => (member.1, member.2.reread) := by
  induction members with
  | nil => rfl
  | cons member members ih => rw [rereadMembers, ih, List.map_cons]

theorem itemsToJson_eq (items : List Value) : itemsToJson items = items.map toJson := by
  induction items with
  | nil => rfl
  | cons item items ih => rw [itemsToJson, ih, List.map_cons]

theorem membersToJson_eq (members : List (String × Value)) :
    membersToJson members = members.map fun member => (member.1, member.2.toJson) := by
  induction members with
  | nil => rfl
  | cons member members ih => rw [membersToJson, ih, List.map_cons]

/-- The value can be read back from its text to the given depth. -/
def Fits (depth : Nat) (v : Value) : Prop := v.toJson.nesting ≤ depth ∧ v.isFinite = true

instance (depth : Nat) (v : Value) : Decidable (v.Fits depth) := instDecidableAnd

theorem not_fits_of_lt {v : Value} {depth n : Nat} (hlt : depth < n) (hle : n ≤ v.toJson.nesting) :
    ¬v.Fits depth := by
  rintro ⟨h, -⟩
  omega

theorem two_le_nesting_list (items : List Value) : 2 ≤ (list items).toJson.nesting := by
  show 2 ≤ max (Json.itemNesting (itemsToJson items) + 1) 0 + 1
  omega

theorem two_le_nesting_object (members : List (String × Value)) :
    2 ≤ (object members).toJson.nesting := by
  show 2 ≤ max (Json.memberNesting (membersToJson members) + 1) 0 + 1
  omega

/-- Every value but null has an object around it. -/
theorem exists_succ_of_nesting_le {v : Value} {depth : Nat} (h : v.toJson.nesting ≤ depth)
    (hv : v ≠ null) : ∃ k, depth = k + 1 := by
  cases depth with
  | zero =>
    cases v with
    | null => exact absurd rfl hv
    | _ => exact absurd h (Nat.not_succ_le_zero _)
  | succ depth => exact ⟨depth, rfl⟩

theorem nesting_list_le {items : List Value} {depth : Nat} :
    (list items).toJson.nesting ≤ depth + 2 ↔ ∀ item ∈ items, item.toJson.nesting ≤ depth := by
  have hnesting : (list items).toJson.nesting = Json.itemNesting (itemsToJson items) + 2 := by
    show max (Json.itemNesting (itemsToJson items) + 1) 0 + 1 = _
    omega
  rw [hnesting, Nat.add_le_add_iff_right, itemsToJson_eq, Json.itemNesting_le, List.forall_mem_map]

theorem nesting_object_le {members : List (String × Value)} {depth : Nat} :
    (object members).toJson.nesting ≤ depth + 2 ↔
      ∀ member ∈ members, member.2.toJson.nesting ≤ depth := by
  have hnesting : (object members).toJson.nesting =
      Json.memberNesting (membersToJson members) + 2 := by
    show max (Json.memberNesting (membersToJson members) + 1) 0 + 1 = _
    omega
  rw [hnesting, Nat.add_le_add_iff_right, membersToJson_eq, Json.memberNesting_le,
    List.forall_mem_map]

theorem nesting_error (e : FieldError) : (error e).toJson.nesting = e.toJson.nesting + 1 := by
  show max e.toJson.nesting 0 + 1 = _
  omega

theorem fits_list {items : List Value} {depth : Nat} :
    (list items).Fits (depth + 2) ↔ ∀ item ∈ items, item.Fits depth := by
  rw [Fits, nesting_list_le, isFinite, itemsFinite_iff]
  exact ⟨fun h item hitem => ⟨h.1 item hitem, h.2 item hitem⟩,
    fun h => ⟨fun item hitem => (h item hitem).1, fun item hitem => (h item hitem).2⟩⟩

theorem fits_object {members : List (String × Value)} {depth : Nat} :
    (object members).Fits (depth + 2) ↔ ∀ member ∈ members, member.2.Fits depth := by
  rw [Fits, nesting_object_le, isFinite, membersFinite_iff]
  exact ⟨fun h member hmember => ⟨h.1 member hmember, h.2 member hmember⟩,
    fun h => ⟨fun member hmember => (h member hmember).1,
      fun member hmember => (h member hmember).2⟩⟩

theorem fits_error {e : FieldError} {depth : Nat} :
    (error e).Fits (depth + 1) ↔ e.toJson.nesting ≤ depth := by
  rw [Fits, nesting_error, Nat.add_le_add_iff_right]
  exact ⟨And.left, fun h => ⟨h, rfl⟩⟩

/-- The text of a list is read by reading its items two levels further down. -/
theorem ofDocument?_list (items : List Value) (depth : Nat) :
    ofDocument? (depth + 2) (list items).toJson.document =
      (items.mapM fun item => ofDocument? depth item.toJson.document).map list := by
  have hdocument : (list items).toJson.document =
      .object [(some "list", .array (Json.documentItems (itemsToJson items)))] := rfl
  rw [hdocument, Json.documentItems_eq, itemsToJson_eq, List.map_map]
  show ((items.map (Json.document ∘ toJson)).mapM (ofDocument? depth)).map list = _
  rw [List.mapM_map]
  rfl

/-- The text of an object is read by reading its members, which are then put in order. -/
theorem ofDocument?_object (members : List (String × Value)) (depth : Nat) :
    ofDocument? (depth + 2) (object members).toJson.document =
      (members.mapM fun member => (ofDocument? depth member.2.toJson.document).map
        fun value => (member.1, value)).map fun entries => object (Entries.ofList entries) := by
  have hdocument : (object members).toJson.document =
      .object [(some "object", .object (Json.documentMembers (membersToJson members)))] := rfl
  rw [hdocument, membersToJson_eq]
  show (Json.Document.namedMembers? (Json.documentMembers _)).bind (fun named =>
    (named.mapM fun member => (ofDocument? depth member.2).map fun value =>
      (member.1, value)).bind fun entries => some (object (Entries.ofList entries))) = _
  rw [Json.Document.namedMembers?_documentMembers, Option.bind_some, List.map_map, List.mapM_map,
    Option.map_eq_bind]
  rfl

/-- A value without parts is read at any depth but the lowest. -/
theorem ofDocument?_leaf {v : Value} (hnesting : v.toJson.nesting = 1)
    (hlowest : ofDocument? 0 v.toJson.document = none)
    (hread : ∀ depth, ofDocument? (depth + 1) v.toJson.document =
      if v.isFinite then some v.reread else none) (depth : Nat) :
    ofDocument? depth v.toJson.document = if v.Fits depth then some v.reread else none := by
  cases depth with
  | zero =>
    rw [hlowest, if_neg (not_fits_of_lt Nat.zero_lt_one hnesting.ge)]
  | succ depth =>
    have hdepth : v.toJson.nesting ≤ depth + 1 := hnesting ▸ Nat.le_add_left 1 depth
    rw [hread]
    exact if_congr (and_iff_right hdepth).symm rfl rfl

/-- A reader reads back what was written, unless it nests too deep or holds a number that is not
finite. -/
theorem ofDocument?_toJson (v : Value) (depth : Nat) :
    ofDocument? depth v.toJson.document = if v.Fits depth then some v.reread else none := by
  induction v using Value.induction generalizing depth with
  | null =>
    rw [if_pos ⟨Nat.zero_le _, rfl⟩]
    cases depth <;> rfl
  | boolean b => exact ofDocument?_leaf rfl rfl (fun _ => rfl) depth
  | int n =>
    refine ofDocument?_leaf rfl rfl (fun depth => ?_) depth
    show ((Json.Integer.ofInt64 n).int64?.map int) = _
    rw [Json.Integer.int64?_ofInt64]
    rfl
  | float x =>
    refine ofDocument?_leaf rfl rfl (fun depth => ?_) depth
    show ((if x.isFinite then Json.Document.number (some (.float x.reread))
      else .null).number?.map fun n => float (floatOfNumber n)) = if x.isFinite then _ else none
    split <;> rfl
  | string s => exact ofDocument?_leaf rfl rfl (fun _ => rfl) depth
  | reference key => exact ofDocument?_leaf rfl rfl (fun _ => rfl) depth
  -- a list nests in the object that tags it, and so takes two levels
  | list items ih =>
    match depth with
    | 0 => rw [if_neg (not_fits_of_lt (by decide) (two_le_nesting_list items))]; rfl
    | 1 => rw [if_neg (not_fits_of_lt (by decide) (two_le_nesting_list items))]; rfl
    | depth + 2 =>
      rw [ofDocument?_list, Json.mapM_if fun item hitem => ih item hitem depth, reread,
        rereadItems_eq]
      simp only [fits_list]
      split <;> rfl
  | object members ih =>
    match depth with
    | 0 => rw [if_neg (not_fits_of_lt (by decide) (two_le_nesting_object members))]; rfl
    | 1 => rw [if_neg (not_fits_of_lt (by decide) (two_le_nesting_object members))]; rfl
    | depth + 2 =>
      have hmembers : members.mapM (fun member => (ofDocument? depth
          member.2.toJson.document).map fun value => (member.1, value)) = _ :=
        Json.mapM_if (P := fun member => member.2.Fits depth)
          (h := fun member => (member.1, member.2.reread)) fun member hmember => by
            rw [ih member hmember depth]
            split <;> rfl
      rw [ofDocument?_object, hmembers, reread, rereadMembers_eq]
      simp only [fits_object]
      split <;> rfl
  | error e =>
    cases depth with
    | zero => rfl
    | succ depth =>
      show ((FieldError.ofDocument? depth e.toJson.document).map error) = _
      rw [FieldError.ofDocument?_toJson]
      simp only [fits_error]
      split <;> rfl

end Value
end RecordCache
