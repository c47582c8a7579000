import Mathlib.Data.List.Basic

/-!
# Sorts that keep what is equal in its order

The library's sort is stable: elements that need no sorting among themselves come out in the order
in which they went in. Sorted by a key, a list is determined by what it holds under each key.

* `Sorting.filter_mergeSort`: the sort leaves such elements in their order;
* `Sorting.eq_of_filter_eq`: two sorted lists that hold the same under each key are the same.
-/

namespace RecordCache.Sorting

universe u v

variable {α : Type u}

/-- The sort leaves elements in their order that are in no order to be sorted by. -/
theorem filter_mergeSort {le : α → α → Bool}
    (htrans : ∀ a b c, le a b = true → le b c = true → le a c = true)
    (htotal : ∀ a b, (le a b || le b a) = true) {p : α → Bool}
    (hsame : ∀ a b, p a = true → p b = true → le a b = true) (xs : List α) :
    (xs.mergeSort le).filter p = xs.filter p := by
  have hpairwise : (xs.filter p).Pairwise fun a b => le a b = true := by
    refine List.pairwise_of_forall_mem_list fun a ha b hb => ?_
    exact hsame a b (List.mem_filter.1 ha).2 (List.mem_filter.1 hb).2
  have hkept : (xs.filter p).Sublist (xs.mergeSort le) :=
    List.sublist_mergeSort htrans htotal hpairwise List.filter_sublist
  have hsublist := hkept.filter p
  rw [List.filter_filter] at hsublist
  simp only [Bool.and_self] at hsublist
  exact (hsublist.eq_of_length ((List.mergeSort_perm xs le).symm.filter p).length_eq).symm

section Keyed

variable {κ : Type v} [DecidableEq κ] {key : α → κ}

theorem mem_of_filter_eq {xs ys : List α}
    (h : ∀ k, (xs.filter fun a => key a = k) = ys.filter fun a => key a = k) {x : α}
    (hx : x ∈ xs) : x ∈ ys := by
  have hfiltered : x ∈ xs.filter fun a => key a = key x :=
    List.mem_filter.2 ⟨hx, decide_eq_true rfl⟩
  rw [h] at hfiltered
  exact (List.mem_filter.1 hfiltered).1

/-- By induction on the lists: the two first elements are in order both ways, so that they have one
key, under which they are the first. -/
theorem eq_of_filter_eq (key : α → κ) {le : α → α → Prop}
    (hkey : ∀ a b, le a b → le b a → key a = key b) {xs ys : List α}
    (hx : xs.Pairwise le) (hy : ys.Pairwise le)
    (h : ∀ k, (xs.filter fun a => key a = k) = ys.filter fun a => key a = k) : xs = ys := by
  induction xs generalizing ys with
  | nil =>
    cases ys with
    | nil => rfl
    | cons y ys => cases mem_of_filter_eq (fun k => (h k).symm) List.mem_cons_self
  | cons x xs ih =>
    cases ys with
    | nil => cases mem_of_filter_eq h List.mem_cons_self
    | cons y ys =>
      obtain ⟨hx, hxs⟩ := List.pairwise_cons.1 hx
      obtain ⟨hy, hys⟩ := List.pairwise_cons.1 hy
      -- Each of the two first elements is the other one or stands behind it in the other list.
      have hsame : key x = key y := by
        rcases List.mem_cons.1 (mem_of_filter_eq h List.mem_cons_self) with rfl | hxy
        · rfl
        rcases List.mem_cons.1 (mem_of_filter_eq (fun k => (h k).symm) List.mem_cons_self)
          with rfl | hyx
        · rfl
        exact hkey x y (hx y hyx) (hy x hxy)
      obtain rfl : x = y := by
        have hfirst := h (key x)
        simp only [List.filter_cons, hsame, decide_true, if_true] at hfirst
        exact (List.cons.inj hfirst).1
      have hrest := ih hxs hys fun k => by
        have hk := h k
        by_cases hxk : key x = k
        · simpa [List.filter_cons, hxk] using hk
        · simpa [List.filter_cons, hxk] using hk
      rw [hrest]

end Keyed
end RecordCache.Sorting
