import RecordCache.FieldKey
import RecordCache.Proofs.Json.Canonical
import RecordCache.Proofs.Sorting

/-!
# Field keys tell calls apart

The key of a field is its name with the arguments in order of name. The sort leaves the values that
are given under one name in their order, and the text of the arguments tells their canonical forms.
So two calls of one field share a key exactly if the same values are given under each name.

* `FieldKey.given` is what is given under a name, in order;
* `FieldKey.filter_sortedArguments`, `pairwise_sortedArguments`: what the sort keeps and what it
  brings about;
* `FieldKey.make_eq_iff_sorted`: two keys are equal if the sorted arguments have the same canonical
  forms;
* `FieldKey.make_eq_iff`: and when that is.
-/

namespace RecordCache.FieldKey

open Json (canonicalMember SameItems SameMembers)

/-- The values given under a name, in the order in which they are given. -/
def given (argument : String) (arguments : List (String × Json)) : List Json :=
  (arguments.filter fun a => a.1 = argument).map Prod.snd

variable {name argument : String} {arguments others : List (String × Json)}

/-! ### The order of arguments -/

/-- The first argument may stand before the second. -/
def notAfter (a b : String × Json) : Bool := compare a.1 b.1 != .gt

theorem notAfter_iff (a b : String × Json) :
    notAfter a b = true ↔ (compare a.1 b.1).isLE = true := by
  rw [notAfter, bne_iff_ne, Ordering.isLE_iff_ne_gt]

theorem notAfter_trans (a b c : String × Json) (hab : notAfter a b = true)
    (hbc : notAfter b c = true) : notAfter a c = true := by
  rw [notAfter_iff] at *
  exact Std.TransCmp.isLE_trans hab hbc

theorem notAfter_total (a b : String × Json) : (notAfter a b || notAfter b a) = true := by
  have hswap : compare b.1 a.1 = (compare a.1 b.1).swap := Std.OrientedCmp.eq_swap
  simp only [notAfter, hswap]
  cases compare a.1 b.1 <;> rfl

theorem notAfter_antisymm {a b : String × Json} (hab : notAfter a b = true)
    (hba : notAfter b a = true) : a.1 = b.1 := by
  rw [notAfter_iff] at hab hba
  exact Std.LawfulEqCmp.eq_of_compare (Std.OrientedCmp.isLE_antisymm hab hba)

theorem notAfter_of_eq {a b : String × Json} (h : a.1 = b.1) : notAfter a b = true := by
  rw [notAfter_iff, h]
  exact Std.ReflCmp.isLE_rfl

theorem perm_sortedArguments (arguments : List (String × Json)) :
    (sortedArguments arguments).Perm arguments :=
  List.mergeSort_perm _ _

theorem pairwise_sortedArguments (arguments : List (String × Json)) :
    (sortedArguments arguments).Pairwise fun a b => notAfter a b = true :=
  List.pairwise_mergeSort notAfter_trans notAfter_total arguments

/-- Canonical values do not change the order, which is that of the names. -/
theorem pairwise_canonical (arguments : List (String × Json)) :
    ((sortedArguments arguments).map canonicalMember).Pairwise fun a b => notAfter a b = true :=
  List.pairwise_map.2 (pairwise_sortedArguments arguments)

/-- With one value under each name only one order is sorted. -/
theorem eq_of_perm_of_pairwise (h : (arguments.map Prod.fst).Nodup) (hperm : arguments.Perm others)
    (harguments : arguments.Pairwise fun a b => notAfter a b = true)
    (hothers : others.Pairwise fun a b => notAfter a b = true) : arguments = others := by
  refine hperm.eq_of_pairwise (fun a b ha hb hab hba => ?_) harguments hothers
  exact List.inj_on_of_nodup_map h ha (hperm.mem_iff.2 hb) (notAfter_antisymm hab hba)

theorem sortedArguments_of_perm (h : (arguments.map Prod.fst).Nodup)
    (hperm : arguments.Perm others) : sortedArguments arguments = sortedArguments others := by
  have hsorted := (perm_sortedArguments arguments).trans
    (hperm.trans (perm_sortedArguments others).symm)
  refine eq_of_perm_of_pairwise ?_ hsorted (pairwise_sortedArguments arguments)
    (pairwise_sortedArguments others)
  exact ((perm_sortedArguments arguments).map Prod.fst).nodup_iff.2 h

/-- Under each name the order is kept. -/
theorem filter_sortedArguments (argument : String) (arguments : List (String × Json)) :
    ((sortedArguments arguments).filter fun a => a.1 = argument) =
      arguments.filter fun a => a.1 = argument :=
  Sorting.filter_mergeSort notAfter_trans notAfter_total
    (fun _ _ ha hb => notAfter_of_eq ((of_decide_eq_true ha).trans (of_decide_eq_true hb).symm)) _

/-! ### Equal sorted arguments -/

/-- What the sorted arguments hold under a name is what is given under it. -/
theorem filter_canonical (argument : String) (arguments : List (String × Json)) :
    (((sortedArguments arguments).map canonicalMember).filter fun a => a.1 = argument) =
      ((given argument arguments).map Json.canonical).map (Prod.mk argument) := by
  rw [List.filter_map]
  change ((sortedArguments arguments).filter fun a => a.1 = argument).map canonicalMember = _
  rw [filter_sortedArguments, given, List.map_map, List.map_map]
  refine List.map_congr_left fun a ha => ?_
  have hname : a.1 = argument := of_decide_eq_true (List.mem_filter.1 ha).2
  rw [canonicalMember, hname]
  rfl

theorem sorted_eq_iff_given :
    (sortedArguments arguments).map canonicalMember =
        (sortedArguments others).map canonicalMember ↔
      ∀ argument, (given argument arguments).map Json.canonical =
        (given argument others).map Json.canonical := by
  constructor
  · intro h argument
    have hfilter := congrArg (List.filter fun a => a.1 = argument) h
    rw [filter_canonical, filter_canonical] at hfilter
    exact List.map_injective_iff.2 (Prod.mk_right_injective argument) hfilter
  · intro h
    refine Sorting.eq_of_filter_eq Prod.fst (fun _ _ => notAfter_antisymm)
      (pairwise_canonical arguments) (pairwise_canonical others) fun argument => ?_
    rw [filter_canonical, filter_canonical, h]

theorem sorted_eq_iff_perm (h : (arguments.map Prod.fst).Nodup) :
    (sortedArguments arguments).map canonicalMember =
        (sortedArguments others).map canonicalMember ↔
      (arguments.map canonicalMember).Perm (others.map canonicalMember) := by
  have hsorted (list : List (String × Json)) :
      ((sortedArguments list).map canonicalMember).Perm (list.map canonicalMember) :=
    (perm_sortedArguments list).map canonicalMember
  constructor
  · intro heq
    exact (hsorted arguments).symm.trans (heq ▸ hsorted others)
  · intro hperm
    refine eq_of_perm_of_pairwise ?_
      ((hsorted arguments).trans (hperm.trans (hsorted others).symm))
      (pairwise_canonical arguments) (pairwise_canonical others)
    rw [Json.names_canonicalMember]
    exact ((perm_sortedArguments arguments).map Prod.fst).nodup_iff.2 h

/-! ### Equal keys -/

theorem isExact_sortedArguments (h : ∀ a ∈ arguments, a.2.IsPlain) :
    ∀ a ∈ (sortedArguments arguments).map canonicalMember, a.2.IsExact :=
  List.forall_mem_map.2 fun a ha =>
    (h a ((perm_sortedArguments arguments).subset ha)).isExact_canonical

theorem toList_make_cons (name : String) (a : String × Json) (arguments : List (String × Json)) :
    (make name (a :: arguments)).toList =
      name.toList ++ ('(' :: '\x7b' :: argumentsText (a :: arguments) ++ ['\x7d', ')']) := by
  rw [make, List.isEmpty_cons, if_neg Bool.false_ne_true, String.toList_ofList, List.append_assoc]

theorem make_cons_ne (name : String) (a : String × Json) (arguments : List (String × Json)) :
    make name (a :: arguments) ≠ name := by
  intro h
  have hlength := congrArg (fun key : String => key.toList.length) h
  simp [toList_make_cons] at hlength

theorem make_congr (hlength : arguments.length = others.length)
    (htext : argumentsText arguments = argumentsText others) :
    make name arguments = make name others := by
  have hempty : arguments.isEmpty = others.isEmpty := by
    rw [Bool.eq_iff_iff, List.isEmpty_iff_length_eq_zero, List.isEmpty_iff_length_eq_zero, hlength]
  rw [make, make, hempty, htext]

/-- Distinct names can be given in any order, whatever the values are. -/
theorem make_of_perm (h : (arguments.map Prod.fst).Nodup) (hperm : arguments.Perm others) :
    make name arguments = make name others := by
  refine make_congr hperm.length_eq ?_
  rw [argumentsText, argumentsText, sortedArguments_of_perm h hperm]

/-- The text of the arguments tells their canonical forms, and the key tells the text. -/
theorem make_eq_iff_sorted (harguments : ∀ a ∈ arguments, a.2.IsPlain)
    (hothers : ∀ a ∈ others, a.2.IsPlain) :
    make name arguments = make name others ↔
      (sortedArguments arguments).map canonicalMember =
        (sortedArguments others).map canonicalMember := by
  constructor
  · intro h
    -- Without arguments there are no brackets: such a key is shorter than any other.
    cases arguments with
    | nil =>
      cases others with
      | nil => rfl
      | cons b others => exact absurd h.symm (make_cons_ne name b others)
    | cons a arguments =>
      cases others with
      | nil => exact absurd h (make_cons_ne name a arguments)
      | cons b others =>
        have htext := congrArg String.toList h
        rw [toList_make_cons, toList_make_cons] at htext
        simp only [List.cons_append, List.append_cancel_left_eq, List.cons.injEq, true_and,
          List.append_cancel_right_eq] at htext
        exact Json.textMembers_injective (isExact_sortedArguments harguments)
          (isExact_sortedArguments hothers) htext
  · intro h
    have hlength := congrArg List.length h
    simp only [List.length_map, (perm_sortedArguments _).length_eq] at hlength
    exact make_congr hlength (congrArg Json.textMembers h)

/-- **Field keys.** Two calls share a key exactly if under each name the same values are given in
the same order, objects being the same whatever the order of their members. If no name is given
twice, they do so exactly if the arguments are the same, in whatever order. -/
theorem make_eq_iff (name : String) {arguments others : List (String × Json)}
    (harguments : ∀ a ∈ arguments, a.2.IsPlain) (hothers : ∀ a ∈ others, a.2.IsPlain) :
    (make name arguments = make name others ↔
      ∀ argument, SameItems (given argument arguments) (given argument others)) ∧
    ((arguments.map Prod.fst).Nodup →
      (make name arguments = make name others ↔ SameMembers arguments others) ∧
      ∀ permuted : List (String × Json), permuted.Perm arguments →
        make name permuted = make name arguments) := by
  have hplain {x y : Json} {a b : String} (hx : (a, x) ∈ arguments) (hy : (b, y) ∈ others) :
      x.canonical = y.canonical ↔ Json.Same x y :=
    Json.canonical_eq_iff (harguments _ hx) (hothers _ hy)
  refine ⟨?_, fun hdistinct => ⟨?_, ?_⟩⟩
  · rw [make_eq_iff_sorted harguments hothers, sorted_eq_iff_given]
    refine forall_congr' fun argument => ?_
    refine Json.sameItems_iff fun x hx y hy => ?_
    obtain ⟨⟨a, _⟩, ha, rfl⟩ := List.mem_map.1 hx
    obtain ⟨⟨b, _⟩, hb, rfl⟩ := List.mem_map.1 hy
    exact hplain (List.mem_filter.1 ha).1 (List.mem_filter.1 hb).1
  · rw [make_eq_iff_sorted harguments hothers, sorted_eq_iff_perm hdistinct]
    exact Json.sameMembers_iff fun a ha b hb => hplain ha hb
  · intro permuted hpermuted
    exact (make_of_perm hdistinct hpermuted.symm).symm

/-- Arguments and members in another order give the key again; the values of one name do not. -/
theorem make_eq_iff_user :
    make "user" [("id", .string "1"), ("filter", .object [("b", .null), ("a", .bool true)])] =
      make "user" [("filter", .object [("a", .bool true), ("b", .null)]), ("id", .string "1")] ∧
    make "user" [("id", .string "1"), ("id", .string "2")] ≠
      make "user" [("id", .string "2"), ("id", .string "1")] := by
  constructor
  · have hplain : ∀ ms ∈ [[("b", Json.null), ("a", .bool true)], [("a", .bool true), ("b", .null)]],
        (Json.object ms).IsPlain := by
      intro ms hms
      refine .object ?_ ?_
      · revert ms
        decide
      · simp only [List.mem_cons, List.not_mem_nil, or_false] at hms
        rcases hms with rfl | rfl <;> simp [Json.IsPlain.null, Json.IsPlain.bool]
    have hfilter : Json.Same (.object [("b", .null), ("a", .bool true)])
        (.object [("a", .bool true), ("b", .null)]) :=
      .object (@SameMembers.cons _ _ _ _ [_] [] .null (@SameMembers.cons _ _ _ _ [] [] (.bool true)
        .nil))
    refine ((make_eq_iff "user" ?_ ?_).2 (by decide)).1.2 ?_
    · simp [hplain, Json.IsPlain.string]
    · simp [hplain, Json.IsPlain.string]
    · exact @SameMembers.cons _ _ _ _ [_] [] (.string "1")
        (@SameMembers.cons _ _ _ _ [] [] hfilter .nil)
  · intro h
    have hstring (s t : String) (hsame : Json.Same (.string s) (.string t)) : s = t := by
      cases hsame
      rfl
    have hid : SameItems [.string "1", .string "2"] [.string "2", .string "1"] :=
      (make_eq_iff "user" (by simp [Json.IsPlain.string]) (by simp [Json.IsPlain.string])).1.1 h
        "id"
    cases hid with
    | cons hfirst _ => exact absurd (hstring "1" "2" hfirst) (by decide)

end RecordCache.FieldKey
