import RecordCache.Proofs.SortedMap
import RecordCache.Proofs.Value.Codec

/-!
# Shapes of field values

What merging, writing and reading keep of a field value is said hereditarily: which floating-point
numbers it holds, in which order its members stand, and how deep it nests.

* `Value.Shape` is a choice of numbers and of orders, and `Value.Within` says that a value has the
  shape and nests to some depth;
* `Value.fits_iff_within`: values that can be read back;
* `Value.Within.reread_eq`: without floating-point numbers a value is read back as itself, and
  `Value.HasShape.equals_iff`: it equals no other value;
* `Value.within_reread`: what is read back can be read back again.
-/

namespace RecordCache
namespace Value

/-- Which floating-point numbers and which lists of members a value may hold. -/
structure Shape where
  number : Binary64 → Prop
  members : List (String × Value) → Prop
  members_nil : members []
  members_insert : ∀ name value entries,
    members entries → members (Entries.insert name value entries)

namespace Shape

/-- Finite numbers, and members in any order. -/
def finite : Shape where
  number x := x.isFinite = true
  members _ := True
  members_nil := trivial
  members_insert _ _ _ _ := trivial

/-- Finite numbers, and members in ascending order. -/
def stored : Shape where
  number x := x.isFinite = true
  members := Entries.Ascending
  members_nil := .nil
  members_insert _ _ _ := Entries.ascending_insert _ _

/-- No floating-point number, and members in ascending order. -/
def exact : Shape where
  number _ := False
  members := Entries.Ascending
  members_nil := .nil
  members_insert _ _ _ := Entries.ascending_insert _ _

end Shape

/-- The value has the shape, and its text nests at most `depth` deep. -/
inductive Within (shape : Shape) : Nat → Value → Prop
  | null {depth : Nat} : Within shape depth null
  | boolean {depth : Nat} (b : Bool) : Within shape (depth + 1) (boolean b)
  | int {depth : Nat} (n : Int64) : Within shape (depth + 1) (int n)
  | float {depth : Nat} {x : Binary64} : shape.number x → Within shape (depth + 1) (float x)
  | string {depth : Nat} (s : String) : Within shape (depth + 1) (string s)
  | reference {depth : Nat} (key : Key) : Within shape (depth + 1) (reference key)
  | list {depth : Nat} {items : List Value} :
    (∀ item ∈ items, Within shape depth item) → Within shape (depth + 2) (list items)
  | object {depth : Nat} {members : List (String × Value)} : shape.members members →
    (∀ member ∈ members, Within shape depth member.2) → Within shape (depth + 2) (object members)
  | error {depth : Nat} {e : FieldError} :
    e.toJson.nesting ≤ depth → Within shape (depth + 1) (error e)

theorem Within.mono {shape shape' : Shape} (hnumber : ∀ x, shape.number x → shape'.number x)
    (hmembers : ∀ entries, shape.members entries → shape'.members entries) {depth : Nat}
    {v : Value} (h : v.Within shape depth) : v.Within shape' depth := by
  induction h with
  | null => exact .null
  | boolean b => exact .boolean b
  | int n => exact .int n
  | float hx => exact .float (hnumber _ hx)
  | string s => exact .string s
  | reference key => exact .reference key
  | list _ ih => exact .list ih
  | object hentries _ ih => exact .object (hmembers _ hentries) ih
  | error he => exact .error he

theorem Within.finite_of_exact {depth : Nat} {v : Value} (h : v.Within .exact depth) :
    v.Within .finite depth := by
  refine h.mono ?_ ?_
  · exact fun _ => False.elim
  · exact fun _ _ => trivial

theorem Within.finite_of_stored {depth : Nat} {v : Value} (h : v.Within .stored depth) :
    v.Within .finite depth := by
  refine h.mono ?_ ?_
  · exact fun _ hx => hx
  · exact fun _ _ => trivial

theorem Within.fits {v : Value} {depth : Nat} (h : v.Within .finite depth) : v.Fits depth := by
  induction h with
  | null => exact ⟨Nat.zero_le _, rfl⟩
  | boolean b => exact ⟨Nat.le_add_left 1 _, rfl⟩
  | int n => exact ⟨Nat.le_add_left 1 _, rfl⟩
  | float hx => exact ⟨Nat.le_add_left 1 _, hx⟩
  | string s => exact ⟨Nat.le_add_left 1 _, rfl⟩
  | reference key => exact ⟨Nat.le_add_left 1 _, rfl⟩
  | list _ ih => exact fits_list.2 ih
  | object _ _ ih => exact fits_object.2 ih
  | error he => exact fits_error.2 he

theorem Fits.within {v : Value} {depth : Nat} (h : v.Fits depth) : v.Within .finite depth := by
  induction v using Value.induction generalizing depth with
  | null => exact .null
  | boolean b =>
    obtain ⟨depth, rfl⟩ := exists_succ_of_nesting_le h.1 nofun
    exact .boolean b
  | int n =>
    obtain ⟨depth, rfl⟩ := exists_succ_of_nesting_le h.1 nofun
    exact .int n
  | float x =>
    obtain ⟨depth, rfl⟩ := exists_succ_of_nesting_le h.1 nofun
    exact .float h.2
  | string s =>
    obtain ⟨depth, rfl⟩ := exists_succ_of_nesting_le h.1 nofun
    exact .string s
  | reference key =>
    obtain ⟨depth, rfl⟩ := exists_succ_of_nesting_le h.1 nofun
    exact .reference key
  | list items ih =>
    obtain ⟨depth, rfl⟩ : ∃ k, depth = k + 2 :=
      ⟨depth - 2, by have := Nat.le_trans (two_le_nesting_list items) h.1; omega⟩
    exact .list fun item hitem => ih item hitem (fits_list.1 h item hitem)
  | object members ih =>
    obtain ⟨depth, rfl⟩ : ∃ k, depth = k + 2 :=
      ⟨depth - 2, by have := Nat.le_trans (two_le_nesting_object members) h.1; omega⟩
    exact .object trivial fun member hmember => ih member hmember (fits_object.1 h member hmember)
  | error e =>
    obtain ⟨depth, rfl⟩ := exists_succ_of_nesting_le h.1 nofun
    exact .error (fits_error.1 h)

/-- A value can be read back when all its numbers are finite and it is not too deep. -/
theorem fits_iff_within {v : Value} {depth : Nat} : v.Fits depth ↔ v.Within .finite depth :=
  ⟨Fits.within, Within.fits⟩

/-- What is read back can be read back again: its numbers are finite and its members in order. -/
theorem within_reread {v : Value} {depth : Nat} (h : v.Within .finite depth) :
    v.reread.Within .stored depth := by
  induction h with
  | null => exact .null
  | boolean b => exact .boolean b
  | int n => exact .int n
  | float hx => exact .float (Binary64.isFinite_reread hx)
  | string s => exact .string s
  | reference key => exact .reference key
  | list _ ih =>
    rw [reread, rereadItems_eq]
    exact .list (List.forall_mem_map.2 ih)
  | object _ _ ih =>
    rw [reread, rereadMembers_eq]
    exact .object (Entries.ascending_ofList _)
      (Entries.forall_mem_ofList (List.forall_mem_map.2 ih))
  | error he => exact .error he

/-- Without floating-point numbers, and with its members in order, a value is read back as
itself. -/
theorem Within.reread_eq {v : Value} {depth : Nat} (h : v.Within .exact depth) :
    v.reread = v := by
  induction h with
  | null => rfl
  | boolean b => rfl
  | int n => rfl
  | float hx => exact hx.elim
  | string s => rfl
  | reference key => rfl
  | list _ ih =>
    rw [reread, rereadItems_eq, List.map_congr_left ih, List.map_id']
  | object hascending _ ih =>
    rename_i members _
    have hsame : (members.map fun member => (member.1, member.2.reread)) = members := by
      rw [List.map_congr_left fun member hmember => by rw [ih member hmember], List.map_id']
    rw [reread, rereadMembers_eq, hsame, Entries.ofList_eq_self hascending]
  | error he => rfl

theorem eq_of_equalItems {xs ys : List Value}
    (hys : ∀ y ∈ ys, ∀ x : Value, x.equals y = true → x = y) (h : equalItems xs ys = true) :
    xs = ys := by
  induction ys generalizing xs with
  | nil =>
    cases xs with
    | nil => rfl
    | cons x xs => cases h
  | cons y ys ih =>
    cases xs with
    | nil => cases h
    | cons x xs =>
      obtain ⟨hy, hrest⟩ := List.forall_mem_cons.1 hys
      rw [equalItems, Bool.and_eq_true] at h
      rw [hy x h.1, ih hrest h.2]

theorem eq_of_equalMembers {xs ys : List (String × Value)}
    (hys : ∀ y ∈ ys, ∀ x : Value, x.equals y.2 = true → x = y.2) (h : equalMembers xs ys = true) :
    xs = ys := by
  induction ys generalizing xs with
  | nil =>
    cases xs with
    | nil => rfl
    | cons x xs => cases h
  | cons y ys ih =>
    cases xs with
    | nil => cases h
    | cons x xs =>
      obtain ⟨hy, hrest⟩ := List.forall_mem_cons.1 hys
      obtain ⟨name, x⟩ := x
      obtain ⟨name', y⟩ := y
      simp only [equalMembers, Bool.and_eq_true, beq_iff_eq] at h
      rw [h.1.1, hy x h.1.2, ih hrest h.2]

/-- Without floating-point numbers, equality is being the same value. -/
theorem Within.eq_of_equals {old v : Value} {depth : Nat} (h : v.Within .exact depth)
    (hequals : old.equals v = true) : old = v := by
  induction h generalizing old with
  | null =>
    cases old with
    | null => rfl
    | _ => cases hequals
  | boolean b =>
    cases old with
    | boolean b' => rw [show b' = b from beq_iff_eq.1 hequals]
    | _ => cases hequals
  | int n =>
    cases old with
    | int n' => rw [show n' = n from beq_iff_eq.1 hequals]
    | _ => cases hequals
  | float hx => exact hx.elim
  | string s =>
    cases old with
    | string s' => rw [show s' = s from beq_iff_eq.1 hequals]
    | _ => cases hequals
  | reference key =>
    cases old with
    | reference key' => rw [show key' = key from beq_iff_eq.1 hequals]
    | _ => cases hequals
  | list _ ih =>
    cases old with
    | list items => rw [eq_of_equalItems (fun y hy x hxy => ih y hy hxy) hequals]
    | _ => cases hequals
  | object _ _ ih =>
    cases old with
    | object members => rw [eq_of_equalMembers (fun y hy x hxy => ih y hy hxy) hequals]
    | _ => cases hequals
  | error _ =>
    cases old with
    | error e => rw [beq_iff_eq.1 hequals]
    | _ => cases hequals

theorem equalItems_comm {xs ys : List Value} (h : ∀ x ∈ xs, ∀ y, x.equals y = y.equals x) :
    equalItems xs ys = equalItems ys xs := by
  induction xs generalizing ys with
  | nil => cases ys <;> rfl
  | cons x xs ih =>
    obtain ⟨hx, hxs⟩ := List.forall_mem_cons.1 h
    cases ys with
    | nil => rfl
    | cons y ys => rw [equalItems, equalItems, hx, ih hxs]

theorem equalMembers_comm {xs ys : List (String × Value)}
    (h : ∀ x ∈ xs, ∀ y, x.2.equals y = y.equals x.2) : equalMembers xs ys = equalMembers ys xs := by
  induction xs generalizing ys with
  | nil => cases ys <;> rfl
  | cons x xs ih =>
    obtain ⟨hx, hxs⟩ := List.forall_mem_cons.1 h
    cases ys with
    | nil => rfl
    | cons y ys => rw [equalMembers, equalMembers, hx, ih hxs, BEq.comm (a := x.1)]

theorem equals_comm (v w : Value) : v.equals w = w.equals v := by
  induction v using Value.induction generalizing w with
  | null => cases w <;> rfl
  | boolean b =>
    cases w with
    | boolean c => exact BEq.comm
    | _ => rfl
  | int n =>
    cases w with
    | int k => exact BEq.comm
    | _ => rfl
  | float x =>
    cases w with
    | float y =>
      show x.equals y = y.equals x
      rw [Binary64.equals, Binary64.equals, Bool.and_comm (!x.isNaN), BEq.comm (a := x.bits),
        Bool.and_comm x.isZero]
    | _ => rfl
  | string s =>
    cases w with
    | string t => exact BEq.comm
    | _ => rfl
  | reference key =>
    cases w with
    | reference other => exact BEq.comm
    | _ => rfl
  | list items ih =>
    cases w with
    | list others => exact equalItems_comm ih
    | _ => rfl
  | object members ih =>
    cases w with
    | object others => exact equalMembers_comm ih
    | _ => rfl
  | error e =>
    cases w with
    | error d => exact BEq.comm
    | _ => rfl

theorem equalItems_self {items : List Value} (h : ∀ item ∈ items, item.equals item = true) :
    equalItems items items = true := by
  induction items with
  | nil => rfl
  | cons item items ih =>
    obtain ⟨hitem, hitems⟩ := List.forall_mem_cons.1 h
    rw [equalItems, hitem, ih hitems]
    rfl

theorem equalMembers_self {members : List (String × Value)}
    (h : ∀ member ∈ members, member.2.equals member.2 = true) :
    equalMembers members members = true := by
  induction members with
  | nil => rfl
  | cons member members ih =>
    obtain ⟨hmember, hmembers⟩ := List.forall_mem_cons.1 h
    rw [equalMembers, beq_self_eq_true, hmember, ih hmembers]
    rfl

theorem Within.equals_self {v : Value} {depth : Nat} (h : v.Within .exact depth) :
    v.equals v = true := by
  induction h with
  | null => rfl
  | boolean b => exact beq_self_eq_true b
  | int n => exact beq_self_eq_true n
  | float hx => exact hx.elim
  | string s => exact beq_self_eq_true s
  | reference key => exact beq_self_eq_true key
  | list _ ih => exact equalItems_self ih
  | object _ _ ih => exact equalMembers_self ih
  | error _ => exact beq_self_eq_true _

/-- The value has the shape, however deep it nests. -/
def HasShape (shape : Shape) (v : Value) : Prop := ∃ depth, v.Within shape depth

theorem HasShape.reread_eq {v : Value} (h : v.HasShape .exact) : v.reread = v :=
  h.elim fun _ hwithin => hwithin.reread_eq

theorem HasShape.map_reread {value : Option Value} (h : ∀ v, value = some v → v.HasShape .exact) :
    value.map reread = value := by
  cases value with
  | none => rfl
  | some v => exact congrArg some (h v rfl).reread_eq

theorem HasShape.eq_of_equals {old v : Value} (h : v.HasShape .exact)
    (hequals : old.equals v = true) : old = v :=
  h.elim fun _ hwithin => hwithin.eq_of_equals hequals

theorem HasShape.equals_iff {v w : Value} (h : v.HasShape .exact) : v.equals w = true ↔ v = w := by
  constructor
  · intro hequals
    rw [equals_comm] at hequals
    exact (h.eq_of_equals hequals).symm
  · rintro rfl
    exact h.elim fun _ hwithin => hwithin.equals_self

theorem HasShape.within {shape : Shape} {v : Value} {depth : Nat} (h : v.HasShape shape)
    (hdepth : v.toJson.nesting ≤ depth) : v.Within shape depth := by
  obtain ⟨height, h⟩ := h
  induction h generalizing depth with
  | null => exact .null
  | boolean b =>
    obtain ⟨depth, rfl⟩ := exists_succ_of_nesting_le hdepth nofun
    exact .boolean b
  | int n =>
    obtain ⟨depth, rfl⟩ := exists_succ_of_nesting_le hdepth nofun
    exact .int n
  | float hx =>
    obtain ⟨depth, rfl⟩ := exists_succ_of_nesting_le hdepth nofun
    exact .float hx
  | string s =>
    obtain ⟨depth, rfl⟩ := exists_succ_of_nesting_le hdepth nofun
    exact .string s
  | reference key =>
    obtain ⟨depth, rfl⟩ := exists_succ_of_nesting_le hdepth nofun
    exact .reference key
  | list _ ih =>
    rename_i items _
    obtain ⟨depth, rfl⟩ : ∃ k, depth = k + 2 :=
      ⟨depth - 2, by have := Nat.le_trans (two_le_nesting_list items) hdepth; omega⟩
    exact .list fun item hitem => ih item hitem (nesting_list_le.1 hdepth item hitem)
  | object hmembers _ ih =>
    rename_i members _
    obtain ⟨depth, rfl⟩ : ∃ k, depth = k + 2 :=
      ⟨depth - 2, by have := Nat.le_trans (two_le_nesting_object members) hdepth; omega⟩
    exact .object hmembers fun member hmember =>
      ih member hmember (nesting_object_le.1 hdepth member hmember)
  | error _ =>
    obtain ⟨depth, rfl⟩ := exists_succ_of_nesting_le hdepth nofun
    rw [nesting_error] at hdepth
    exact .error (Nat.le_of_succ_le_succ hdepth)

end Value
end RecordCache
