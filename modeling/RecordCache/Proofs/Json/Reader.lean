import RecordCache.Proofs.Json.Document
import RecordCache.Proofs.SortedMap

/-!
# Reading values back

A printed JSON value is read back if it nests no deeper than the reader goes. What is read has the
members of its objects in order, and in place of each floating-point number what a reader makes of
its literal.

* `Json.induction`: what holds of a value when it holds of all inside holds of every value;
* `Json.nesting` is how deep arrays and objects nest;
* `Json.reread` is the value that a reader makes of the text of a value;
* `Json.ofDocument?_document`: a reader reads this value, or nothing when the nesting is too deep;
* `Json.nesting_reread_le`: what is read nests no deeper;
* `Json.IsExact` says that a value holds no floating-point number and has its members in order, so
  that it is read back as itself and equals no other value.
-/

namespace RecordCache.Json

/-- Induction over a value with the hypothesis for each item and each member. -/
@[elab_as_elim]
theorem induction {P : Json → Prop} (null : P null) (bool : ∀ b, P (bool b))
    (number : ∀ n, P (number n)) (string : ∀ s, P (string s))
    (array : ∀ items, (∀ item ∈ items, P item) → P (array items))
    (object : ∀ members, (∀ member ∈ members, P member.2) → P (object members)) (j : Json) : P j :=
  Json.rec null bool number string array object (List.forall_mem_nil _)
    (fun _ _ hitem hitems => List.forall_mem_cons.2 ⟨hitem, hitems⟩) (List.forall_mem_nil _)
    (fun _ _ hmember hmembers => List.forall_mem_cons.2 ⟨hmember, hmembers⟩) (fun _ _ h => h) j

mutual

/-- How deep arrays and objects nest in the value. -/
def nesting : Json → Nat
  | array items => itemNesting items + 1
  | object members => memberNesting members + 1
  | _ => 0

/-- How deep arrays and objects nest in the items. -/
def itemNesting : List Json → Nat
  | [] => 0
  | item :: items => max item.nesting (itemNesting items)

/-- How deep arrays and objects nest in the members. -/
def memberNesting : List (String × Json) → Nat
  | [] => 0
  | (_, value) :: members => max value.nesting (memberNesting members)

end

mutual

/-- The value that a reader makes of the text of a value. -/
def reread : Json → Json
  | number (.float x) => if x.isFinite then number (.float x.reread) else null
  | array items => array (rereadItems items)
  | object members => object (Entries.ofList (rereadMembers members))
  | value => value

/-- The items as they are read. -/
def rereadItems : List Json → List Json
  | [] => []
  | item :: items => item.reread :: rereadItems items

/-- The members with their values as they are read. -/
def rereadMembers : List (String × Json) → List (String × Json)
  | [] => []
  | (name, value) :: members => (name, value.reread) :: rereadMembers members

end

theorem memberNesting_le {members : List (String × Json)} {depth : Nat} :
    memberNesting members ≤ depth ↔ ∀ member ∈ members, member.2.nesting ≤ depth := by
  induction members with
  | nil => simp [memberNesting]
  | cons member members ih =>
    rw [memberNesting, Nat.max_le, ih, List.forall_mem_cons]

theorem itemNesting_le {items : List Json} {depth : Nat} :
    itemNesting items ≤ depth ↔ ∀ item ∈ items, item.nesting ≤ depth := by
  induction items with
  | nil => simp [itemNesting]
  | cons item items ih =>
    rw [itemNesting, Nat.max_le, ih, List.forall_mem_cons]

/-- The members of a printed object have names. -/
theorem Document.namedMembers?_documentMembers (members : List (String × Json)) :
    Document.namedMembers? (documentMembers members) =
      some (members.map fun member => (member.1, member.2.document)) := by
  induction members with
  | nil => rfl
  | cons member members ih =>
    obtain ⟨name, value⟩ := member
    rw [documentMembers, Document.namedMembers?, List.mapM_cons]
    rw [Document.namedMembers?] at ih
    rw [ih]
    rfl

/-- A list is read when each of its elements is. -/
theorem mapM_if {α β : Type} {read : α → Option β} {P : α → Prop} [DecidablePred P] {h : α → β}
    {xs : List α} (hread : ∀ x ∈ xs, read x = if P x then some (h x) else none) :
    xs.mapM read = if ∀ x ∈ xs, P x then some (xs.map h) else none := by
  induction xs with
  | nil => rfl
  | cons x xs ih =>
    obtain ⟨hx, hxs⟩ := List.forall_mem_cons.1 hread
    rw [List.mapM_cons, hx, ih hxs]
    by_cases hP : P x
    · by_cases hall : ∀ y ∈ xs, P y
      · rw [if_pos hP, if_pos hall, if_pos (List.forall_mem_cons.2 ⟨hP, hall⟩)]
        rfl
      · rw [if_pos hP, if_neg hall, if_neg fun hboth => hall (List.forall_mem_cons.1 hboth).2]
        rfl
    · rw [if_neg hP, if_neg fun hboth => hP (List.forall_mem_cons.1 hboth).1]
      rfl

theorem documentItems_eq (items : List Json) : documentItems items = items.map document := by
  induction items with
  | nil => rfl
  | cons item items ih => rw [documentItems, ih, List.map_cons]

theorem rereadItems_eq (items : List Json) : rereadItems items = items.map reread := by
  induction items with
  | nil => rfl
  | cons item items ih => rw [rereadItems, ih, List.map_cons]

theorem rereadMembers_eq (members : List (String × Json)) :
    rereadMembers members = members.map fun member => (member.1, member.2.reread) := by
  induction members with
  | nil => rfl
  | cons member members ih => rw [rereadMembers, ih, List.map_cons]

/-- A reader reads back what was written, unless it nests too deep. -/
theorem ofDocument?_document (j : Json) (depth : Nat) :
    ofDocument? depth j.document = if j.nesting ≤ depth then some j.reread else none := by
  induction j using Json.induction generalizing depth with
  | null =>
    rw [show nesting null = 0 from rfl, if_pos (Nat.zero_le _)]
    cases depth <;> rfl
  | bool b =>
    rw [show nesting (bool b) = 0 from rfl, if_pos (Nat.zero_le _)]
    cases depth <;> rfl
  | number n =>
    rw [show nesting (number n) = 0 from rfl, if_pos (Nat.zero_le _)]
    cases n with
    | integer n => cases depth <;> rfl
    | float x =>
      rw [document, reread]
      split <;> cases depth <;> rfl
  | string s =>
    rw [show nesting (string s) = 0 from rfl, if_pos (Nat.zero_le _)]
    cases depth <;> rfl
  | array items ih =>
    rw [document, nesting, reread, rereadItems_eq, documentItems_eq]
    cases depth with
    | zero => rfl
    | succ depth =>
      have hitems : items.mapM (ofDocument? depth ∘ document) = _ :=
        mapM_if fun item hitem => ih item hitem depth
      rw [ofDocument?, List.mapM_map, hitems]
      simp only [Nat.add_le_add_iff_right, itemNesting_le]
      split <;> rfl
  | object members ih =>
    rw [document, nesting, reread, rereadMembers_eq]
    cases depth with
    | zero => rfl
    | succ depth =>
      rw [ofDocument?, Document.namedMembers?_documentMembers]
      simp only [bind, Option.bind_some, List.mapM_map]
      rw [mapM_if (P := fun member : String × Json => member.2.nesting ≤ depth)
        (h := fun member => (member.1, member.2.reread))]
      · simp only [Nat.add_le_add_iff_right, memberNesting_le]
        split <;> rfl
      · intro member hmember
        show ((ofDocument? depth member.2.document).map _) = _
        rw [ih member hmember depth]
        split <;> rfl

theorem nesting_reread_le (j : Json) : j.reread.nesting ≤ j.nesting := by
  induction j using Json.induction with
  | null => exact Nat.le_refl _
  | bool b => exact Nat.le_refl _
  | number n =>
    cases n with
    | integer n => exact Nat.le_refl _
    | float x =>
      rw [reread]
      split <;> exact Nat.zero_le _
  | string s => exact Nat.le_refl _
  | array items ih =>
    rw [reread, rereadItems_eq, nesting, nesting, Nat.add_le_add_iff_right, itemNesting_le]
    exact List.forall_mem_map.2 fun item hitem =>
      Nat.le_trans (ih item hitem) (itemNesting_le.1 (Nat.le_refl _) item hitem)
  | object members ih =>
    rw [reread, rereadMembers_eq, nesting, nesting, Nat.add_le_add_iff_right, memberNesting_le]
    refine Entries.forall_mem_ofList (P := fun value : Json => value.nesting ≤ _) ?_
    exact List.forall_mem_map.2 fun member hmember =>
      Nat.le_trans (ih member hmember) (memberNesting_le.1 (Nat.le_refl _) member hmember)

theorem Integer.int64?_ofInt64 (n : Int64) : (Integer.ofInt64 n).int64? = some n := by
  have hlt : n.toInt < Word.count63 := n.toInt_lt
  rw [int64?, ofInt64, if_pos hlt, Int64.ofInt_toInt]

/-- The value holds no floating-point number, and its members are in order. -/
inductive IsExact : Json → Prop
  | null : IsExact null
  | bool (b : Bool) : IsExact (bool b)
  | integer (n : Integer) : IsExact (number (.integer n))
  | string (s : String) : IsExact (string s)
  | array {items : List Json} : (∀ item ∈ items, IsExact item) → IsExact (array items)
  | object {members : List (String × Json)} : Entries.Ascending members →
    (∀ member ∈ members, IsExact member.2) → IsExact (object members)

theorem IsExact.reread_eq {j : Json} (h : j.IsExact) : j.reread = j := by
  induction h with
  | null => rfl
  | bool b => rfl
  | integer n => rfl
  | string s => rfl
  | array _ ih => rw [reread, rereadItems_eq, List.map_congr_left ih, List.map_id']
  | object hascending _ ih =>
    rename_i members _
    have hsame : (members.map fun member => (member.1, member.2.reread)) = members := by
      rw [List.map_congr_left fun member hmember => by rw [ih member hmember], List.map_id']
    rw [reread, rereadMembers_eq, hsame, Entries.ofList_eq_self hascending]

theorem equalItems_iff {xs ys : List Json} (h : ∀ x ∈ xs, ∀ y, x.equals y = true ↔ x = y) :
    equalItems xs ys = true ↔ xs = ys := by
  induction xs generalizing ys with
  | nil => cases ys <;> simp [equalItems]
  | cons x xs ih =>
    obtain ⟨hx, hxs⟩ := List.forall_mem_cons.1 h
    cases ys with
    | nil => simp [equalItems]
    | cons y ys => rw [equalItems, Bool.and_eq_true, hx, ih hxs, List.cons.injEq]

theorem equalMembers_iff {xs ys : List (String × Json)}
    (h : ∀ x ∈ xs, ∀ y, x.2.equals y = true ↔ x.2 = y) : equalMembers xs ys = true ↔ xs = ys := by
  induction xs generalizing ys with
  | nil => cases ys <;> simp [equalMembers]
  | cons x xs ih =>
    obtain ⟨hx, hxs⟩ := List.forall_mem_cons.1 h
    cases ys with
    | nil => simp [equalMembers]
    | cons y ys =>
      rw [equalMembers, Bool.and_eq_true, Bool.and_eq_true, beq_iff_eq, hx, ih hxs,
        List.cons.injEq, Prod.ext_iff]

/-- Without floating-point numbers, equality is being the same value. -/
theorem IsExact.equals_iff {j k : Json} (h : j.IsExact) : j.equals k = true ↔ j = k := by
  induction h generalizing k with
  | null => cases k <;> simp [equals]
  | bool b => cases k <;> simp [equals]
  | integer n =>
    cases k with
    | number m => cases m <;> simp [equals, Number.equals]
    | _ => simp [equals]
  | string s => cases k <;> simp [equals]
  | array _ ih =>
    cases k with
    | array ys => rw [equals, equalItems_iff fun x hx y => ih x hx, array.injEq]
    | _ => simp [equals]
  | object _ _ ih =>
    cases k with
    | object ys => rw [equals, equalMembers_iff fun x hx y => ih x hx, object.injEq]
    | _ => simp [equals]

end RecordCache.Json
