import RecordCache.Proofs.Lru.Operations

/-!
# What a cache bounded by weight holds

Without an age of expiry and as long as nothing is evicted, a cache is a map: each operation does to
its contents what the operation of its name does to a map.

* `Lru.contents` are the values by key, which a look shows (`find?_contents_of_peek`);
* `Lru.peek_eq`, `contents_removeWhere`: operations as seen in the contents;
* `Lru.ofList_snapshot`: the live entries, listed by use, are the contents.
-/

namespace RecordCache.Lru

universe u v

variable {κ : Type u} {α : Type v} [Ord κ] {lru : Lru κ α} {key : κ} {now : Instant}

/-- The values by key. -/
def contents (lru : Lru κ α) : SortedMap κ α := lru.entries.mapValues Entry.value

theorem find?_contents (lru : Lru κ α) (key : κ) :
    lru.contents.find? key = (lru.entries.find? key).map Entry.value :=
  SortedMap.find?_mapValues _ _ _

/-- A value that a look shows is held. -/
theorem find?_contents_of_peek {value : α} (h : lru.peek now key = some value) :
    lru.contents.find? key = some value := by
  have hall : lru.All fun key value => lru.contents.find? key = some value := by
    intro k entry hentry
    rw [find?_contents, hentry]
    rfl
  exact hall.of_peek h

section Lasting

variable (hlasting : lru.expireAfter = none)

include hlasting

theorem isExpired_eq_false (entry : Entry α) : lru.isExpired now entry = false := by
  rw [isExpired, hlasting]

theorem peek_eq : lru.peek now key = lru.contents.find? key := by
  rw [peek, find?_contents]
  cases lru.entries.find? key with
  | none => rfl
  | some entry =>
    dsimp only
    rw [isExpired_eq_false hlasting, if_neg Bool.false_ne_true]
    rfl

end Lasting

section Operations

variable [Std.TransOrd κ] [Std.LawfulEqOrd κ] [DecidableEq κ] (h : lru.Valid)

include h

/-- A removal drops what the condition accepts, and lists just that. -/
theorem contents_removeWhere (hlasting : lru.expireAfter = none) (matching : κ → α → Bool) :
    (lru.removeWhere now matching).2.contents =
        lru.contents.filter (fun k value => !matching k value) ∧
      (lru.removeWhere now matching).1.length +
        (lru.removeWhere now matching).2.contents.size = lru.contents.size := by
  have hcontents : (lru.removeWhere now matching).2.contents =
      lru.contents.filter fun k value => !matching k value := by
    refine SortedMap.ext fun k => ?_
    rw [find?_contents, (removeWhere_spec h now matching).2, SortedMap.find?_filter,
      find?_contents]
    cases lru.entries.find? k with
    | none => rfl
    | some entry =>
      rw [Option.filter_some, isExpired_eq_false hlasting, Option.map_some, Option.filter_some]
      cases matching k entry.value <;> rfl
  refine ⟨hcontents, ?_⟩
  have hlength : (lru.removeWhere now matching).1.length =
      (lru.contents.entries.filter fun entry => !!matching entry.1 entry.2).length := by
    show ((lru.entries.entries.filter fun entry =>
        !lru.isExpired now entry.2 && matching entry.1 entry.2.value).map _).length =
      ((lru.entries.entries.map fun entry => (entry.1, entry.2.value)).filter _).length
    rw [List.length_map, List.filter_map, List.length_map]
    refine congrArg List.length (List.filter_congr fun entry _ => ?_)
    rw [isExpired_eq_false hlasting, Function.comp, Bool.not_not]
    rfl
  rw [hlength, hcontents]
  exact SortedMap.size_filter (fun k value => !matching k value) lru.contents

/-- The live entries, listed by use, are the contents. -/
theorem ofList_snapshot (hlasting : lru.expireAfter = none) :
    SortedMap.ofList (lru.snapshot now) = lru.contents := by
  have hpair : ∀ pair ∈ lru.snapshot now, lru.contents.find? pair.1 = some pair.2 := by
    intro pair hpair
    obtain ⟨k, -, hmap⟩ := List.mem_filterMap.1 hpair
    obtain ⟨value, hpeek, rfl⟩ := Option.map_eq_some_iff.1 hmap
    rw [← peek_eq hlasting]
    exact hpeek
  refine SortedMap.ext fun k => ?_
  rw [SortedMap.find?_ofList]
  cases hfound : (lru.snapshot now).reverse.find? fun pair => pair.1 = k with
  | some pair =>
    have hk : pair.1 = k := by simpa using List.find?_some hfound
    rw [← hk]
    exact (hpair pair (List.mem_reverse.1 (List.mem_of_find?_eq_some hfound))).symm
  | none =>
    cases hentry : lru.entries.find? k with
    | none => rw [find?_contents, hentry]; rfl
    | some entry =>
      -- The index lists the key of every entry.
      have hlisted := (h.listed entry.tick k).2 ⟨entry, hentry, rfl⟩
      have hpeek : lru.peek now k = some entry.value := by
        rw [peek_eq hlasting, find?_contents, hentry]
        rfl
      have hmem : (k, entry.value) ∈ lru.snapshot now :=
        List.mem_filterMap.2 ⟨k, SortedMap.mem_values.2 ⟨_, hlisted⟩, by rw [hpeek]; rfl⟩
      exact absurd (decide_eq_true rfl)
        (List.find?_eq_none.1 hfound _ (List.mem_reverse.2 hmem))

end Operations

end RecordCache.Lru
