import Mathlib.Data.Int.Order.Basic
import Mathlib.Order.MinMax
import RecordCache.Proofs.Merge

/-!
# The union of two windows

Two windows of a list that overlap or touch merge into their union: it begins where the first of
them begins, ends where the last of them ends, and has an item at each position in between.

* `Window.IsUnion` says which items the union has, and `IsUnion.unique` that it has no others;
* `Window.isUnion_splice`: this is how windows are merged;
* `IsUnion.again`, `isUnion_self`: what a window adds to a union that it is part of;
* `Window.merge_unites`: two fields with windows, and the same window once more.
-/

namespace RecordCache

/-- Only the integer itself is read as an integer of 64 bits. -/
theorem Json.eq_ofInt64 {json : Json} {n : Int64} (h : json.int64? = some n) :
    json = .ofInt64 n := by
  cases json with
  | number m =>
    cases m with
    | integer m =>
      replace h : m.int64? = some n := h
      rw [Integer.int64?] at h
      split at h
      · rename_i hlt
        cases h
        have hsame : (Int64.ofInt m.toInt).toInt = m.toInt :=
          Int64.toInt_ofInt_of_le m.inRange.1 hlt
        simp only [ofInt64, Integer.ofInt64, hsame]
      · cases h
    | float x => cases h
  | _ => cases h

namespace Window

/-- The list begins where the first of two windows begins and ends where the last of them ends. It
has the items of the new window at the positions of that window, and those of the other
elsewhere. -/
structure IsUnion (first : Int) (items : List Value) (newFirst : Int) (newItems : List Value)
    (union : List Value) : Prop where
  length : (union.length : Int) =
    max (first + items.length) (newFirst + newItems.length) - min first newFirst
  item : ∀ position : Int, min first newFirst ≤ position →
    position < max (first + items.length) (newFirst + newItems.length) → ∃ item,
      union[(position - min first newFirst).toNat]? = some item ∧
      if newFirst ≤ position ∧ position < newFirst + newItems.length then
        newItems[(position - newFirst).toNat]? = some item
      else first ≤ position ∧ items[(position - first).toNat]? = some item

variable {first newFirst : Int} {items newItems union union' : List Value}

/-- The windows have one union. -/
theorem IsUnion.unique (h : IsUnion first items newFirst newItems union)
    (h' : IsUnion first items newFirst newItems union') : union = union' := by
  have hlength : union.length = union'.length := by
    have := h.length
    have := h'.length
    omega
  refine List.ext_getElem? fun i => ?_
  by_cases hi : i < union.length
  · have hstop := h.length
    obtain ⟨item, hitem, hfrom⟩ := h.item (min first newFirst + i) (by omega) (by omega)
    obtain ⟨item', hitem', hfrom'⟩ := h'.item (min first newFirst + i) (by omega) (by omega)
    rw [add_sub_cancel_left, Int.toNat_natCast] at hitem hitem'
    rw [hitem, hitem']
    split at hfrom
    · rename_i hnew
      rw [if_pos hnew, hfrom] at hfrom'
      exact hfrom'
    · rename_i hold
      rw [if_neg hold, hfrom.2] at hfrom'
      exact hfrom'.2
  · rw [List.getElem?_eq_none (by omega), List.getElem?_eq_none (by omega)]

/-- A window is its own union with itself. -/
theorem isUnion_self (first : Int) (items : List Value) :
    IsUnion first items first items items where
  length := by omega
  item position hstart hstop := by
    rw [min_self] at *
    rw [max_self] at hstop
    have hlt : (position - first).toNat < items.length := by omega
    refine ⟨items[(position - first).toNat], List.getElem?_eq_getElem hlt, ?_⟩
    rw [if_pos ⟨hstart, hstop⟩, List.getElem?_eq_getElem hlt]

/-- A window adds nothing to a union that it is part of. -/
theorem IsUnion.again (h : IsUnion first items newFirst newItems union) :
    IsUnion (min first newFirst) union newFirst newItems union := by
  have hlength := h.length
  have hstart : min (min first newFirst) newFirst = min first newFirst := by omega
  refine ⟨by omega, fun position hposition hstop => ?_⟩
  rw [hstart] at hposition ⊢
  obtain ⟨item, hitem, hfrom⟩ := h.item position hposition (by omega)
  refine ⟨item, hitem, ?_⟩
  split
  · rename_i hnew
    rw [if_pos hnew] at hfrom
    exact hfrom
  · exact ⟨hposition, hitem⟩

/-! ### Splicing -/

/-- Where each step gives an item, the items are those of the steps. -/
theorem map_some_filterMap {f : Nat → Option Value} {steps : List Nat}
    (h : ∀ step ∈ steps, ∃ item, f step = some item) :
    (steps.filterMap f).map some = steps.map f := by
  induction steps with
  | nil => rfl
  | cons step steps ih =>
    obtain ⟨⟨item, hitem⟩, hsteps⟩ := List.forall_mem_cons.1 h
    rw [List.filterMap_cons_some hitem, List.map_cons, List.map_cons, ih hsteps, hitem]

/-- A window has an item at each of its positions. -/
theorem itemAt?_of_mem {items : List Value} {first : Int64} {position : Int}
    (hstart : first.toInt ≤ position) (hstop : position < first.toInt + items.length) :
    ∃ item, itemAt? items first position = some item ∧
      items[(position - first.toInt).toNat]? = some item := by
  have hlt : (position - first.toInt).toNat < items.length := by omega
  rw [itemAt?, if_neg (Int.not_lt.2 hstart)]
  exact ⟨_, List.getElem?_eq_getElem hlt, List.getElem?_eq_getElem hlt⟩

variable {first newFirst : Int64}

theorem endOf_eq {count : Nat} (h : first.toInt + count ≤ Int64.maxValue.toInt) :
    endOf first count = first.toInt + count :=
  min_eq_left h

theorem toInt_min (a b : Int64) : (min a b).toInt = min a.toInt b.toInt := by
  show (if a ≤ b then a else b).toInt = _
  split
  · rename_i hle
    exact (min_eq_left (Int64.le_iff_toInt_le.1 hle)).symm
  · rename_i hlt
    have hle := Int64.le_iff_toInt_le.1 (Int64.le_of_lt (Int64.not_le.1 hlt))
    exact (min_eq_right hle).symm

/-- The item of the union at a position: that of the new window if it is in there. -/
def unionAt? (first : Int64) (items : List Value) (newFirst : Int64) (newItems : List Value)
    (position : Int) : Option Value :=
  if newFirst.toInt ≤ position ∧ position < newFirst.toInt + newItems.length then
    itemAt? newItems newFirst position
  else itemAt? items first position

section Touching

variable (hbefore : newFirst.toInt ≤ first.toInt + items.length)
  (hbehind : first.toInt ≤ newFirst.toInt + newItems.length)

include hbefore hbehind

/-- Of windows that overlap or touch, a position between the two ends that is not in one is in the
other. -/
theorem unionAt?_of_mem (position : Int) (hstart : min first.toInt newFirst.toInt ≤ position)
    (hstop : position < max (first.toInt + items.length) (newFirst.toInt + newItems.length)) :
    ∃ item, unionAt? first items newFirst newItems position = some item ∧
      if newFirst.toInt ≤ position ∧ position < newFirst.toInt + newItems.length then
        newItems[(position - newFirst.toInt).toNat]? = some item
      else first.toInt ≤ position ∧ items[(position - first.toInt).toNat]? = some item := by
  rw [unionAt?]
  split
  · rename_i hnew
    exact itemAt?_of_mem hnew.1 hnew.2
  · -- between the windows there is no gap
    have hold : first.toInt ≤ position ∧ position < first.toInt + items.length := by omega
    obtain ⟨item, hitem, hget⟩ := itemAt?_of_mem hold.1 hold.2
    exact ⟨item, hitem, hold.1, hget⟩

/-- Such windows are spliced into their union. -/
theorem isUnion_splice (hstop : first.toInt + items.length ≤ Int64.maxValue.toInt)
    (hnewStop : newFirst.toInt + newItems.length ≤ Int64.maxValue.toInt) :
    IsUnion first.toInt items newFirst.toInt newItems (splice first items newFirst newItems) := by
  -- each step is a position of one of the windows, so none is passed over
  have hsteps : (splice first items newFirst newItems).map some =
      (List.range (max (first.toInt + items.length) (newFirst.toInt + newItems.length) -
        min first.toInt newFirst.toInt).toNat).map fun step : Nat =>
          unionAt? first items newFirst newItems (min first.toInt newFirst.toInt + step) := by
    rw [splice, endOf_eq hstop, endOf_eq hnewStop]
    refine map_some_filterMap fun step hstep => ?_
    rw [List.mem_range] at hstep
    obtain ⟨item, hitem, -⟩ := unionAt?_of_mem hbefore hbehind
      (min first.toInt newFirst.toInt + step) (by omega) (by omega)
    exact ⟨item, hitem⟩
  constructor
  · have hlength := congrArg List.length hsteps
    rw [List.length_map, List.length_map, List.length_range] at hlength
    omega
  · intro position hge hlt
    obtain ⟨item, hitem, hfrom⟩ := unionAt?_of_mem hbefore hbehind position hge hlt
    refine ⟨item, ?_, hfrom⟩
    have hget := congrArg (·[(position - min first.toInt newFirst.toInt).toNat]?) hsteps
    have hposition : min first.toInt newFirst.toInt +
        ((position - min first.toInt newFirst.toInt).toNat : Int) = position := by omega
    simp only [List.getElem?_map] at hget
    rw [List.getElem?_range (by omega), Option.map_some, hposition, hitem] at hget
    exact Option.map_injective (Option.some_injective _) hget

end Touching

/-! ### Fields -/

variable {existing incoming : FieldInfo}

section Fields

variable (hitems : existing.value = .list items) (hnewItems : incoming.value = .list newItems)
  (hfirst : existing.metadata.int64? offset = some first)
  (hnewFirst : incoming.metadata.int64? offset = some newFirst)
  (hstop : first.toInt + items.length ≤ Int64.maxValue.toInt)
  (hnewStop : newFirst.toInt + newItems.length ≤ Int64.maxValue.toInt)

include hitems hnewItems hfirst hnewFirst hstop hnewStop

/-- Across a gap the incoming window is taken as it is. -/
theorem merge_of_gap (hgap : first.toInt + items.length < newFirst.toInt ∨
      newFirst.toInt + newItems.length < first.toInt) : merge existing incoming = incoming := by
  simp only [merge, hfirst, hnewFirst, hitems, hnewItems, endOf_eq hstop, endOf_eq hnewStop]
  exact if_pos hgap

/-- Without one the windows are spliced, and the incoming metadata laid over the stored ones. -/
theorem merge_of_touching (hbefore : newFirst.toInt ≤ first.toInt + items.length)
    (hbehind : first.toInt ≤ newFirst.toInt + newItems.length) :
    merge existing incoming = ⟨.list (splice first items newFirst newItems),
      (existing.metadata.overlay incoming.metadata).insert offset
        (.ofInt64 (min first newFirst))⟩ := by
  simp only [merge, hfirst, hnewFirst, hitems, hnewItems, endOf_eq hstop, endOf_eq hnewStop]
  exact if_neg (by omega)

/-- Such windows merge into their union, placed by the first of the two positions. -/
theorem exists_union (hbefore : newFirst.toInt ≤ first.toInt + items.length)
    (hbehind : first.toInt ≤ newFirst.toInt + newItems.length) :
    ∃ union, (merge existing incoming).value = .list union ∧
      IsUnion first.toInt items newFirst.toInt newItems union ∧
      (merge existing incoming).metadata.find? offset = some (.ofInt64 (min first newFirst)) ∧
      ∀ name, name ≠ offset → (merge existing incoming).metadata.find? name =
        (incoming.metadata.find? name).or (existing.metadata.find? name) := by
  rw [merge_of_touching hitems hnewItems hfirst hnewFirst hstop hnewStop hbefore hbehind]
  refine ⟨_, rfl, isUnion_splice hbefore hbehind hstop hnewStop,
    SortedMap.find?_insert_self _ _ _, fun name hname => ?_⟩
  rw [SortedMap.find?_insert_eq, if_neg hname, SortedMap.find?_overlay]

omit hfirst in
/-- A window that is part of the stored one, metadata and all, changes nothing. -/
theorem merge_eq_self (hplace : existing.metadata.find? offset = some (.ofInt64 first))
    (hunion : IsUnion first.toInt items newFirst.toInt newItems items)
    (hentries : ∀ name entry, name ≠ offset → incoming.metadata.find? name = some entry →
      existing.metadata.find? name = some entry) : merge existing incoming = existing := by
  have hlength := hunion.length
  have hfirst := FieldMetadata.int64?_of_find? hplace
  rw [merge_of_touching hitems hnewItems hfirst hnewFirst hstop hnewStop (by omega) (by omega)]
  have hsplice : splice first items newFirst newItems = items :=
    (isUnion_splice (by omega) (by omega) hstop hnewStop).unique hunion
  have hmin : min first newFirst = first := by
    rw [← Int64.toInt_inj, toInt_min]
    omega
  have hmetadata : (existing.metadata.overlay incoming.metadata).insert offset (.ofInt64 first) =
      existing.metadata := by
    refine SortedMap.ext fun name => ?_
    rw [SortedMap.find?_insert_eq, SortedMap.find?_overlay]
    split
    · rename_i hname
      rw [hname, hplace]
    · rename_i hname
      cases hentry : incoming.metadata.find? name with
      | none => rfl
      | some entry => exact (hentries name entry hname hentry).symm
  rw [hsplice, hmin, hmetadata, ← hitems]

end Fields

/-- **Windows.** Two windows of a list that overlap or touch merge into their union, which is placed
by the first of the two positions; every other metadata entry is the incoming one, or else the
stored one. Across a gap the incoming window is taken as it is. Merging it once more changes
nothing. -/
theorem merge_unites (hitems : existing.value = .list items)
    (hnewItems : incoming.value = .list newItems)
    (hfirst : existing.metadata.int64? offset = some first)
    (hnewFirst : incoming.metadata.int64? offset = some newFirst)
    (hstop : first.toInt + items.length ≤ Int64.maxValue.toInt)
    (hnewStop : newFirst.toInt + newItems.length ≤ Int64.maxValue.toInt) :
    let merged := merge existing incoming
    (newFirst.toInt ≤ first.toInt + items.length → first.toInt ≤ newFirst.toInt + newItems.length →
      ∃ union, merged.value = .list union ∧
        IsUnion first.toInt items newFirst.toInt newItems union ∧
        merged.metadata.find? offset = some (.ofInt64 (min first newFirst)) ∧
        ∀ name, name ≠ offset → merged.metadata.find? name =
          (incoming.metadata.find? name).or (existing.metadata.find? name)) ∧
    (first.toInt + items.length < newFirst.toInt ∨
      newFirst.toInt + newItems.length < first.toInt → merged = incoming) ∧
    merge merged incoming = merged := by
  intro merged
  have hunites := exists_union hitems hnewItems hfirst hnewFirst hstop hnewStop
  have hgap := merge_of_gap hitems hnewItems hfirst hnewFirst hstop hnewStop
  refine ⟨hunites, hgap, ?_⟩
  by_cases htouching : newFirst.toInt ≤ first.toInt + items.length ∧
      first.toInt ≤ newFirst.toInt + newItems.length
  · obtain ⟨union, hvalue, hunion, hplace, hentries⟩ := hunites htouching.1 htouching.2
    have hlength := hunion.length
    have hstart := toInt_min first newFirst
    refine merge_eq_self hvalue hnewItems hnewFirst (by omega) hnewStop hplace
      (hstart ▸ hunion.again) fun name entry hname hentry => ?_
    rw [hentries name hname, hentry, Option.some_or]
  · -- the window that was taken is its own union with itself
    obtain ⟨entry, hentry, hint⟩ := Option.bind_eq_some_iff.1 hnewFirst
    have hplace := hentry.trans (congrArg some (Json.eq_ofInt64 hint))
    rw [show merged = incoming from hgap (by omega)]
    exact merge_eq_self hnewItems hnewItems hnewFirst hnewStop hnewStop hplace (isUnion_self _ _)
      fun _ _ _ h => h

/-- A window from -4 to -1 is laid over one from -2 to 1, a note of which is kept. -/
theorem merge_unites_negative_offsets :
    let existing : FieldInfo := ⟨.list [.int 7, .int 8, .int 9],
      ((∅ : FieldMetadata).insert offset (.ofInt64 (-2))).insert "note" (.ofInt64 1)⟩
    let incoming : FieldInfo := ⟨.list [.int 1, .int 2, .int 3],
      (∅ : FieldMetadata).insert offset (.ofInt64 (-4))⟩
    let merged := merge existing incoming
    (existing.metadata.int64? offset = some (-2) ∧ incoming.metadata.int64? offset = some (-4)) ∧
      (∃ union, merged.value = .list union ∧
        IsUnion (-2) [.int 7, .int 8, .int 9] (-4) [.int 1, .int 2, .int 3] union) ∧
      merged.value = .list [.int 1, .int 2, .int 3, .int 8, .int 9] ∧
      merged.metadata.find? offset = some (.ofInt64 (-4)) ∧
      merged.metadata.find? "note" = some (.ofInt64 1) ∧ merge merged incoming = merged := by
  intro existing incoming merged
  have hfirst : existing.metadata.int64? offset = some (-2) := rfl
  have hnewFirst : incoming.metadata.int64? offset = some (-4) := rfl
  obtain ⟨hunites, -, hagain⟩ := merge_unites rfl rfl hfirst hnewFirst (by decide) (by decide)
  obtain ⟨union, hvalue, hunion, hplace, hentries⟩ := hunites (by decide) (by decide)
  exact ⟨⟨hfirst, hnewFirst⟩, ⟨union, hvalue, hunion⟩, rfl, hplace,
    hentries "note" (by decide), hagain⟩

end Window
end RecordCache
