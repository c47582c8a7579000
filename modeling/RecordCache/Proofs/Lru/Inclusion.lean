import Mathlib.Data.List.Perm.Subperm
import RecordCache.Proofs.Lru.Refinement

/-!
# A larger cache loses no hits

Let every entry weigh one, and let two caches with the same age of expiry be given the same calls.
Then the one with the larger bound holds whatever the other holds. The two may list their entries in
different orders, as a read may move an entry that only the larger one still has, and a removal may
leave only the smaller one with room to spare. But the larger one never holds more entries beyond
those of the smaller one than its bound is larger, so that it is full, and has to evict, only when
the other is full too.

* `Queue.fitting_eq_drop`: with unit weights a list is cut to so many items;
* `Queue.Inside` are two lists of items, one in the other, with that bound on the rest: it is kept
  by dropping items, adding one, and cutting off what does not fit;
* `Queue.Within` says so of two queues, and `Queue.within_call` that every call keeps it;
* `Lru.Within`: what the smaller of two caches holds and gives, so does the larger one;
* `Lru.trace_within`: it does so along every run.
-/

namespace RecordCache

universe u v

/-- An answer gives no more than another: no value or the same one, and no other pairs. -/
inductive Lru.Answer.Within {κ : Type u} {α : Type v} : Answer κ α → Answer κ α → Prop
  | value {found found' : Option α} : found = none ∨ found = found' →
    Within (.value found) (.value found')
  | removed {pairs pairs' : List (κ × α)} : pairs.Subperm pairs' →
    Within (.removed pairs) (.removed pairs')
  | done : Within .done .done

namespace Queue

variable {κ : Type u} {α : Type v}

/-! ### Lists of items -/

theorem weightOf_eq_length {items : List (Item κ α)} (hone : ∀ item ∈ items, item.weight = 1) :
    weightOf items = items.length := by
  rw [weightOf, List.map_congr_left hone, List.map_const', List.sum_replicate_nat,
    Nat.mul_one]

/-- Of items that weigh one each, as many are kept as the bound says, those at the end. -/
theorem fitting_eq_drop (maxWeight : Nat) {items : List (Item κ α)}
    (hone : ∀ item ∈ items, item.weight = 1) :
    fitting maxWeight items = items.drop (items.length - maxWeight) := by
  induction items with
  | nil => rw [fitting_nil, List.drop_nil]
  | cons item items ih =>
    rw [fitting_cons, weightOf_eq_length hone]
    split
    · rename_i hfits
      rw [Nat.sub_eq_zero_of_le hfits, List.drop_zero]
    · rename_i hheavy
      have hlength : (item :: items).length - maxWeight = items.length - maxWeight + 1 := by
        rw [List.length_cons] at hheavy ⊢
        omega
      rw [hlength, List.drop_succ_cons,
        ih fun item hitem => hone item (List.mem_cons_of_mem _ hitem)]

/-- One list of items is in another, in the same order, and the other has no more items beyond it
than the second bound is larger than the first. -/
structure Inside (small large : Nat) (few many : List (Item κ α)) : Prop where
  sublist : few.Sublist many
  room : many.length + small ≤ few.length + large

namespace Inside

variable {small large : Nat} {few many : List (Item κ α)}

/-- Dropping items drops at least as many from the longer list. -/
theorem filter (h : Inside small large few many) (keep : Item κ α → Bool) :
    Inside small large (few.filter keep) (many.filter keep) := by
  refine ⟨h.sublist.filter keep, ?_⟩
  have hfew := few.length_eq_countP_add_countP keep
  have hmany := many.length_eq_countP_add_countP keep
  have hdropped := h.sublist.countP_le (p := fun item => ¬keep item)
  have hroom := h.room
  rw [← List.countP_eq_length_filter, ← List.countP_eq_length_filter]
  omega

theorem append (h : Inside small large few many) (item : Item κ α) :
    Inside small large (few ++ [item]) (many ++ [item]) := by
  refine ⟨h.sublist.append (List.Sublist.refl _), ?_⟩
  have hroom := h.room
  simp only [List.length_append, List.length_singleton]
  omega

/-- An item that only the longer list has may move to its end. -/
theorem move (h : Inside small large few many) {keep : Item κ α → Bool} {item : Item κ α}
    (hitem : item ∈ many) (hdropped : keep item = false) (hkept : few.filter keep = few) :
    Inside small large few (many.filter keep ++ [item]) := by
  refine ⟨?_, ?_⟩
  · have hsublist := h.sublist.filter keep
    rw [hkept] at hsublist
    exact hsublist.trans (List.sublist_append_left _ _)
  · have hfewer : (many.filter keep).length < many.length :=
      List.length_filter_lt_length_iff_exists.2 ⟨item, hitem, by simp [hdropped]⟩
    have hroom := h.room
    rw [List.length_append, List.length_singleton]
    omega

/-- By induction on how the one list lies in the other: where the longer one has to give up its
first item, the shorter one is full, and gives it up as well if it has it. -/
theorem drop (h : Inside small large few many) :
    Inside small large (few.drop (few.length - small)) (many.drop (many.length - large)) := by
  obtain ⟨hsublist, hroom⟩ := h
  refine ⟨?_, ?_⟩
  · induction hsublist with
    | slnil =>
      rw [List.drop_nil, List.drop_nil]
    | @cons few many item hsublist ih =>
      rw [List.length_cons] at hroom ⊢
      by_cases hfits : many.length + 1 ≤ large
      · rw [Nat.sub_eq_zero_of_le hfits, List.drop_zero]
        exact ((List.drop_sublist _ _).trans hsublist).trans (List.sublist_cons_self _ _)
      · rw [Nat.succ_sub (Nat.le_of_not_lt hfits), List.drop_succ_cons]
        exact ih (by omega)
    | @cons_cons few many item hsublist ih =>
      rw [List.length_cons, List.length_cons] at hroom
      rw [List.length_cons, List.length_cons]
      by_cases hfew : few.length + 1 ≤ small
      · rw [Nat.sub_eq_zero_of_le hfew, Nat.sub_eq_zero_of_le (by omega), List.drop_zero,
          List.drop_zero]
        exact hsublist.cons_cons item
      · rw [Nat.succ_sub (Nat.le_of_not_lt hfew), List.drop_succ_cons]
        by_cases hmany : many.length + 1 ≤ large
        · rw [Nat.sub_eq_zero_of_le hmany, List.drop_zero]
          exact ((List.drop_sublist _ _).trans hsublist).trans (List.sublist_cons_self _ _)
        · rw [Nat.succ_sub (Nat.le_of_not_lt hmany), List.drop_succ_cons]
          exact ih (by omega)
  · simp only [List.length_drop]
    omega

/-- The same for what fits of items that weigh one each. -/
theorem fitting (h : Inside small large few many) (hone : ∀ item ∈ many, item.weight = 1) :
    Inside small large (fitting small few) (fitting large many) := by
  rw [fitting_eq_drop _ hone,
    fitting_eq_drop _ fun item hitem => hone item (h.sublist.subset hitem)]
  exact h.drop

end Inside

/-! ### Queues -/

/-- Every item weighs one, the age of expiry is the same, and the items of the one queue are inside
the other. -/
structure Within (small large : Queue κ α) : Prop where
  weighSmall : small.weigh = fun _ _ => 1
  weighLarge : large.weigh = fun _ _ => 1
  weighed : ∀ item ∈ large.items, item.weight = 1
  expireAfter : small.expireAfter = large.expireAfter
  inside : Inside small.maxWeight large.maxWeight small.items large.items

theorem Within.isLive_eq {small large : Queue κ α} (h : Within small large) (now : Instant) :
    small.isLive now = large.isLive now := by
  funext item
  rw [isLive, isLive, h.expireAfter]

section Calls

variable [DecidableEq κ]

/-- The items of a queue without items of a key. -/
theorem others_eq_self {q : Queue κ α} {key : κ} (h : q.item? key = none) :
    q.others key = q.items :=
  List.filter_eq_self.2 fun item hitem => by simpa using List.find?_eq_none.1 h item hitem

/-- A removal leaves the items of the other keys. -/
theorem remove_eq (q : Queue κ α) (now : Instant) (key : κ) :
    ∃ evictions, (q.remove now key).2 =
      { q with items := q.others key, evictions := evictions } := by
  rw [remove]
  cases hitem : q.item? key with
  | none => exact ⟨q.evictions, Queue.ext rfl rfl rfl (others_eq_self hitem).symm rfl rfl rfl⟩
  | some item =>
    dsimp only
    split
    · exact ⟨q.evictions, rfl⟩
    · exact ⟨q.evictions + 1, rfl⟩

/-- A write leaves the items of the other keys with one more, as far as they fit. -/
theorem insert_eq (q : Queue κ α) (now : Instant) (key : κ) (value : α) :
    ∃ evictions, (q.insert now key value).2 = { q with
      items := fitting q.maxWeight (q.others key ++ [⟨key, value, q.weigh key value, now⟩])
      evictions := evictions } := by
  obtain ⟨n, hleft⟩ := q.remove_eq now key
  rw [insert]
  dsimp only
  rw [hleft]
  exact ⟨_, rfl⟩

namespace Within

variable {small large : Queue κ α} (h : Within small large) (now : Instant)

include h

/-- An item of the one queue is the item of its key in the other. -/
theorem item?_eq (hdistinct : (large.items.map Item.key).Nodup) {key : κ} {item : Item κ α}
    (hitem : small.item? key = some item) : large.item? key = some item := by
  have hkey : item.key = key := by simpa using List.find?_some hitem
  have hmem := h.inside.sublist.subset (List.mem_of_find?_eq_some hitem)
  cases hfound : large.item? key with
  | none => exact absurd (decide_eq_true hkey) (List.find?_eq_none.1 hfound item hmem)
  | some found =>
    have hsame : found.key = key := by simpa using List.find?_some hfound
    exact congrArg some (List.inj_on_of_nodup_map hdistinct (List.mem_of_find?_eq_some hfound)
      hmem (hsame.trans hkey.symm))

theorem inside_others (key : κ) :
    Inside small.maxWeight large.maxWeight (small.others key) (large.others key) :=
  h.inside.filter _

theorem weighed_others (key : κ) : ∀ item ∈ large.others key, item.weight = 1 :=
  fun item hitem => h.weighed item (List.mem_filter.1 hitem).1

theorem remove_within (hdistinct : (large.items.map Item.key).Nodup) (key : κ) :
    ((small.remove now key).1 = none ∨ (small.remove now key).1 = (large.remove now key).1) ∧
      Within (small.remove now key).2 (large.remove now key).2 := by
  constructor
  · rw [remove]
    cases hitem : small.item? key with
    | none => exact .inl rfl
    | some item =>
      rw [remove, h.item?_eq hdistinct hitem]
      dsimp only
      rw [h.isLive_eq]
      refine .inr ?_
      split <;> rfl
  · obtain ⟨n, hsmall⟩ := small.remove_eq now key
    obtain ⟨m, hlarge⟩ := large.remove_eq now key
    rw [hsmall, hlarge]
    exact ⟨h.weighSmall, h.weighLarge, h.weighed_others key, h.expireAfter, h.inside_others key⟩

/-- The larger queue cuts off an item only where the other one is full. -/
theorem insert_within (hdistinct : (large.items.map Item.key).Nodup) (key : κ) (value : α) :
    ((small.insert now key value).1 = none ∨
        (small.insert now key value).1 = (large.insert now key value).1) ∧
      Within (small.insert now key value).2 (large.insert now key value).2 := by
  refine ⟨(h.remove_within now hdistinct key).1, ?_⟩
  obtain ⟨n, hsmall⟩ := small.insert_eq now key value
  obtain ⟨m, hlarge⟩ := large.insert_eq now key value
  have hinside := (h.inside_others key).append ⟨key, value, 1, now⟩
  have hones : ∀ item ∈ large.others key ++ [⟨key, value, 1, now⟩], item.weight = 1 := by
    intro item hitem
    rcases List.mem_append.1 hitem with hitem | hitem
    · exact h.weighed_others key item hitem
    · rw [List.mem_singleton.1 hitem]
  rw [hsmall, hlarge, h.weighSmall, h.weighLarge]
  exact ⟨rfl, rfl, fun item hitem => hones item ((fitting_suffix _ _).subset hitem),
    h.expireAfter, hinside.fitting hones⟩

theorem get_within (hdistinct : (large.items.map Item.key).Nodup) (key : κ) :
    ((small.get now key).1 = none ∨ (small.get now key).1 = (large.get now key).1) ∧
      Within (small.get now key).2 (large.get now key).2 := by
  have hothers := h.weighed_others key
  have hdrop := h.inside_others key
  rw [get, get]
  cases hsmall : small.item? key with
  | some item =>
    rw [h.item?_eq hdistinct hsmall]
    dsimp only
    rw [h.isLive_eq]
    split
    · refine ⟨.inr rfl, h.weighSmall, h.weighLarge, fun other hother => ?_, h.expireAfter,
        hdrop.append item⟩
      rcases List.mem_append.1 hother with hother | hother
      · exact hothers other hother
      · rw [List.mem_singleton.1 hother]
        exact h.weighed item (h.inside.sublist.subset (List.mem_of_find?_eq_some hsmall))
    · exact ⟨.inl rfl, h.weighSmall, h.weighLarge, hothers, h.expireAfter, hdrop⟩
  | none =>
    have hsame := others_eq_self hsmall
    refine ⟨.inl rfl, ?_⟩
    cases hlarge : large.item? key with
    | none => exact ⟨h.weighSmall, h.weighLarge, h.weighed, h.expireAfter, h.inside⟩
    | some item =>
      have hmem := List.mem_of_find?_eq_some hlarge
      have hkey : item.key = key := by simpa using List.find?_some hlarge
      dsimp only
      split
      · refine ⟨h.weighSmall, h.weighLarge, fun other hother => ?_, h.expireAfter,
          h.inside.move hmem (by simp [hkey]) hsame⟩
        rcases List.mem_append.1 hother with hother | hother
        · exact hothers other hother
        · rw [List.mem_singleton.1 hother]
          exact h.weighed item hmem
      · rw [hsame] at hdrop
        exact ⟨h.weighSmall, h.weighLarge, hothers, h.expireAfter, hdrop⟩

/-- A look at a key shows what a removal of it would give. -/
theorem peek_within (hdistinct : (large.items.map Item.key).Nodup) (key : κ) :
    small.peek now key = none ∨ small.peek now key = large.peek now key := by
  rw [peek, peek, h.isLive_eq]
  cases hitem : small.item? key with
  | none => exact .inl rfl
  | some item =>
    rw [h.item?_eq hdistinct hitem]
    exact .inr rfl

omit [DecidableEq κ] in
theorem removeWhere_within (matching : κ → α → Bool) :
    (small.removeWhere now matching).1.Sublist (large.removeWhere now matching).1 ∧
      Within (small.removeWhere now matching).2 (large.removeWhere now matching).2 := by
  rw [removeWhere, removeWhere, h.isLive_eq]
  exact ⟨(h.inside.sublist.filter _).map _, h.weighSmall, h.weighLarge,
    fun item hitem => h.weighed item (List.mem_filter.1 hitem).1, h.expireAfter, h.inside.filter _⟩

/-- **One call.** A call gives no more on the one queue than on the other, and leaves it within. -/
theorem call_within (hdistinct : (large.items.map Item.key).Nodup) (call : Lru.Call κ α) :
    (small.call now call).1.Within (large.call now call).1 ∧
      Within (small.call now call).2 (large.call now call).2 := by
  cases call with
  | get key => exact (h.get_within now hdistinct key).imp_left .value
  | peek key => exact ⟨.value (h.peek_within now hdistinct key), h⟩
  | insert key value => exact (h.insert_within now hdistinct key value).imp_left .value
  | remove key => exact (h.remove_within now hdistinct key).imp_left .value
  | removeWhere matching =>
    exact (h.removeWhere_within now matching).imp_left fun hpairs => .removed hpairs.subperm
  | clear =>
    have hroom := h.inside.room
    have hless := h.inside.sublist.length_le
    refine ⟨.done, h.weighSmall, h.weighLarge, List.forall_mem_nil _, h.expireAfter, .slnil, ?_⟩
    show 0 + small.maxWeight ≤ 0 + large.maxWeight
    omega

end Within
end Calls
end Queue

namespace Lru

variable {κ : Type u} {α : Type v}

theorem Answer.Within.of_alike {answer answer' given given' : Answer κ α}
    (h : answer.Within answer') (hgiven : given.Alike answer) (hgiven' : given'.Alike answer') :
    given.Within given' := by
  cases hgiven with
  | value found =>
    cases hgiven' with
    | value found' => exact h
    | removed hpairs => cases h
    | done => cases h
  | removed hpairs =>
    cases h with
    | removed hsub =>
      cases hgiven' with
      | removed hpairs' => exact .removed ((hpairs.subperm.trans hsub).trans hpairs'.symm.subperm)
  | done =>
    cases h with
    | done =>
      cases hgiven' with
      | done => exact .done

variable [Ord κ]

/-- The index lists the keys of the items. -/
theorem keys_items {lru : Lru κ α} (h : lru.Indexed) :
    lru.items.map Queue.Item.key = lru.recency.values := by
  rw [items, List.map_filterMap, SortedMap.values, ← List.filterMap_eq_map]
  refine List.filterMap_congr fun place hplace => ?_
  obtain ⟨entry, hentry, -⟩ :=
    (h.listed place.1 place.2).1 (SortedMap.find?_eq_some_iff_mem.2 hplace)
  rw [hentry]
  rfl

variable [Std.TransOrd κ] [Std.LawfulEqOrd κ]

/-- What a cache holds, the other one holds with the same value, written at the same moment, and
lists in the same order, and what is read from the one at any moment is read from the other. -/
structure Within (small large : Lru κ α) : Prop where
  entries : ∀ key entry, small.entries.find? key = some entry →
    ∃ entry', large.entries.find? key = some entry' ∧ entry'.value = entry.value ∧
      entry'.writtenAt = entry.writtenAt
  order : small.recency.values.Sublist large.recency.values
  hits : ∀ now key value, (small.get now key).1 = some value → (large.get now key).1 = some value

variable [DecidableEq κ] {small large : Lru κ α}

theorem within_of_toQueue (hsmall : small.Valid) (hlarge : large.Valid)
    (h : small.toQueue.Within large.toQueue) : small.Within large := by
  have hdistinct := nodup_items hlarge.toIndexed
  refine ⟨fun key entry hentry => ?_, ?_, fun now key value hvalue => ?_⟩
  · have hitem : small.toQueue.item? key = some (entry.toItem key) := by
      rw [item?_toQueue hsmall.toIndexed, hentry]
      rfl
    have hother := h.item?_eq hdistinct hitem
    rw [item?_toQueue hlarge.toIndexed, Option.map_eq_some_iff] at hother
    obtain ⟨entry', hentry', hsame⟩ := hother
    exact ⟨entry', hentry', congrArg Queue.Item.value hsame, congrArg Queue.Item.writtenAt hsame⟩
  · rw [← keys_items hsmall.toIndexed, ← keys_items hlarge.toIndexed]
    exact h.inside.sublist.map _
  · rw [get_fst, ← peek_toQueue hsmall.toIndexed] at hvalue
    rw [get_fst, ← peek_toQueue hlarge.toIndexed]
    rcases h.peek_within now hdistinct key with hnone | hsame
    · rw [hnone] at hvalue
      cases hvalue
    · exact hsame ▸ hvalue

/-- By induction along the run, with the invariant of the two queues that the caches stand for. -/
theorem trace_within_of_toQueue (hsmall : small.Valid) (hlarge : large.Valid)
    (h : small.toQueue.Within large.toQueue) (calls : List (Instant × Call κ α)) :
    List.Forall₂ (fun few many => few.1.Within many.1 ∧ few.2.Within many.2)
      (small.trace calls) (large.trace calls) := by
  induction calls generalizing small large with
  | nil => exact .nil
  | cons timed calls ih =>
    obtain ⟨now, call⟩ := timed
    obtain ⟨hanswer, hqueue⟩ := call_refines hsmall now call
    obtain ⟨hanswer', hqueue'⟩ := call_refines hlarge now call
    obtain ⟨hgives, hleft⟩ := h.call_within now (nodup_items hlarge.toIndexed) call
    rw [← hqueue, ← hqueue'] at hleft
    have hvalid := (valid_call hsmall now call).1
    have hvalid' := (valid_call hlarge now call).1
    exact .cons ⟨hgives.of_alike hanswer hanswer', within_of_toQueue hvalid hvalid' hleft⟩
      (ih hvalid hvalid' hleft)

/-- **No hit is lost.** Two caches in which every entry weighs one are given the same calls, and one
may hold more entries than the other. After every call each entry of the smaller cache is in the
larger one, with its value and the moment at which it was written, the keys of the smaller one are
listed in the same order by the larger one, and what is read from the smaller one, in the run or
after it, is read from the larger one too. -/
theorem trace_within {bound bound' : Nat} (h : bound ≤ bound') (expireAfter : Option Duration)
    (calls : List (Instant × Call κ α)) :
    List.Forall₂ (fun few many => few.1.Within many.1 ∧ few.2.Within many.2)
      ((new bound (fun _ _ => 1) expireAfter).trace calls)
      ((new bound' (fun _ _ => 1) expireAfter).trace calls) := by
  have hroom : 0 + bound ≤ 0 + bound' := Nat.add_le_add_left h 0
  exact trace_within_of_toQueue (valid_new bound _ _) (valid_new bound' _ _)
    ⟨rfl, rfl, List.forall_mem_nil _, rfl, .slnil, hroom⟩ calls

/-- Room for two entries and for three. A read that only the larger cache can serve changes its
order, a removal leaves the smaller one alone with room, and an entry expires in both. -/
theorem trace_within_two_and_three :
    let calls : List (Instant × Call Nat Nat) :=
      [(⟨0⟩, .insert 1 10), (⟨1⟩, .insert 2 20), (⟨2⟩, .insert 3 30), (⟨3⟩, .get 1),
        (⟨4⟩, .remove 2), (⟨5⟩, .insert 4 40), (⟨6⟩, .get 3), (⟨7⟩, .insert 5 50),
        (⟨8⟩, .removeWhere fun _ value => value = 50), (⟨12⟩, .get 3)]
    let few : Lru Nat Nat := new 2 (fun _ _ => 1) (some ⟨10⟩)
    let many : Lru Nat Nat := new 3 (fun _ _ => 1) (some ⟨10⟩)
    (2 ≤ 3 ∧ List.Forall₂ (fun few many => few.1.Within many.1 ∧ few.2.Within many.2)
      (few.trace calls) (many.trace calls)) ∧
      (few.after (calls.take 5)).recency.values = [3] ∧
      (many.after (calls.take 5)).recency.values = [3, 1] ∧
      (few.after calls).hits = 1 ∧ (many.after calls).hits = 2 :=
  ⟨⟨by decide, trace_within (by decide) _ _⟩, by decide, by decide, by decide, by decide⟩

end Lru
end RecordCache
