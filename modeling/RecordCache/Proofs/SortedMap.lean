import Mathlib.Data.List.Basic
import Mathlib.Data.List.Perm.Subperm
import RecordCache.SortedMap

/-!
# Lookups in sorted maps

A sorted map is determined by its lookups, and every operation is determined by what it does to
them.

* `Entries.find?_eq_some_iff_mem`: a lookup finds the entries of an ascending list;
* `Entries.perm_ofList`, `ofList_eq_iff_perm`: the list made of pairs of distinct keys;
* `SortedMap.ext`: maps with the same lookups are equal;
* `SortedMap.find?_erase`, `find?_filter`, `find?_overlay`, `find?_ofList`: lookups after each
  operation;
* `SortedSet.contains_insert`, `contains_ofList`, `contains_union`, `mem_toList`: the same for sets.
-/

namespace RecordCache

universe u v w

namespace Entries

variable {κ : Type u} {α : Type v} {β : Type w} [Ord κ]

theorem find?_cons (k : κ) (entry : κ × α) (rest : List (κ × α)) :
    find? k (entry :: rest) = if compare k entry.1 = .eq then some entry.2 else find? k rest := rfl

theorem find?_map_snd (f : α → β) (k : κ) (entries : List (κ × α)) :
    find? k (entries.map fun entry => (entry.1, f entry.2)) = (find? k entries).map f := by
  induction entries with
  | nil => rfl
  | cons entry rest ih =>
    rw [List.map_cons, find?_cons, find?_cons, ih]
    split <;> rfl

theorem ascending_map_snd (f : κ × α → β) {entries : List (κ × α)} (h : Ascending entries) :
    Ascending (entries.map fun entry => (entry.1, f entry)) :=
  List.pairwise_map.2 h

/-- A key larger than all others goes to the end. -/
theorem insert_of_gt {key : κ} {value : α} {entries : List (κ × α)}
    (h : ∀ entry ∈ entries, compare key entry.1 = .gt) :
    insert key value entries = entries ++ [(key, value)] := by
  induction entries with
  | nil => rfl
  | cons entry rest ih =>
    obtain ⟨hentry, hrest⟩ := List.forall_mem_cons.1 h
    rw [insert, hentry]
    exact congrArg (entry :: ·) (ih hrest)

theorem forall_mem_ofList {P : α → Prop} {pairs : List (κ × α)} (h : ∀ pair ∈ pairs, P pair.2) :
    ∀ entry ∈ ofList pairs, P entry.2 := by
  refine List.foldlRecOn (motive := fun entries : List (κ × α) => ∀ entry ∈ entries, P entry.2)
    pairs _ (List.forall_mem_nil _) ?_
  intro entries hentries pair hpair entry hentry
  rcases mem_insert hentry with rfl | hentry
  · exact h pair hpair
  · exact hentries entry hentry

section Lawful

variable [Std.LawfulEqOrd κ]

theorem mem_of_find? {k : κ} {value : α} {entries : List (κ × α)}
    (h : find? k entries = some value) : (k, value) ∈ entries := by
  induction entries with
  | nil => simp [find?] at h
  | cons entry rest ih =>
    rw [find?_cons] at h
    split at h
    · rename_i hk
      cases h
      rw [Std.LawfulEqCmp.eq_of_compare hk]
      exact List.mem_cons_self
    · exact List.mem_cons_of_mem _ (ih h)

/-- The first entry under a key, with the key. -/
theorem map_find? [DecidableEq κ] (f : κ × α → β) (k : κ) (entries : List (κ × α)) :
    (entries.find? fun entry => entry.1 = k).map f =
      (find? k entries).map fun value => f (k, value) := by
  induction entries with
  | nil => rfl
  | cons entry rest ih =>
    rw [List.find?_cons, find?_cons]
    by_cases hk : compare k entry.1 = .eq
    · have hkey : k = entry.1 := Std.LawfulEqCmp.eq_of_compare hk
      rw [if_pos hk, hkey, decide_eq_true rfl]
      rfl
    · have hkey : ¬entry.1 = k := fun hkey => hk (hkey ▸ Std.ReflCmp.compare_self)
      rw [if_neg hk, decide_eq_false hkey]
      exact ih

/-- Values that are computed from their entries. -/
theorem find?_map_entry (f : κ × α → β) (k : κ) (entries : List (κ × α)) :
    find? k (entries.map fun entry => (entry.1, f entry)) =
      (find? k entries).map fun value => f (k, value) := by
  induction entries with
  | nil => rfl
  | cons entry rest ih =>
    rw [List.map_cons, find?_cons, find?_cons, ih]
    split
    · rename_i hk
      rw [Std.LawfulEqCmp.eq_of_compare hk]
      rfl
    · rfl

theorem find?_erase [DecidableEq κ] (key k : κ) (entries : List (κ × α)) :
    find? k (erase key entries) = if k = key then none else find? k entries := by
  induction entries with
  | nil => simp [erase, find?]
  | cons entry rest ih =>
    have ih' : find? k (List.filter (fun e => compare key e.1 != .eq) rest) =
        if k = key then none else find? k rest := ih
    by_cases hkey : compare key entry.1 = .eq
    · have he : key = entry.1 := Std.LawfulEqCmp.eq_of_compare hkey
      rw [erase, List.filter_cons_of_neg (by simp [hkey]), ih', find?_cons]
      by_cases hk : k = key
      · simp [hk]
      · rw [if_neg hk, if_neg hk, if_neg]
        intro hc
        exact hk ((Std.LawfulEqCmp.eq_of_compare hc).trans he.symm)
    · rw [erase, List.filter_cons_of_pos (by simp [hkey]), find?_cons, ih', find?_cons]
      by_cases hk : k = key
      · subst hk
        simp [hkey]
      · simp [hk]

end Lawful

section Ordered

variable [Std.TransOrd κ] [Std.LawfulEqOrd κ]

omit [Std.LawfulEqOrd κ] in
theorem not_lt_self (k : κ) : compare k k ≠ .lt := by
  have hself : compare k k = .eq := Std.ReflCmp.compare_self
  rw [hself]
  decide

omit [Std.LawfulEqOrd κ] in
theorem Ascending.nodup {entries : List (κ × α)} (h : Ascending entries) : entries.Nodup := by
  refine List.Pairwise.imp ?_ h
  rintro x y hxy rfl
  exact not_lt_self x.1 hxy

omit [Std.TransOrd κ] in
theorem erase_cons_self {key : κ} {value : α} {rest : List (κ × α)}
    (h : Ascending ((key, value) :: rest)) : erase key ((key, value) :: rest) = rest := by
  have hrest : ∀ entry ∈ rest, (compare key entry.1 != .eq) = true := by
    intro entry hentry
    rw [(List.pairwise_cons.1 h).1 entry hentry]
    rfl
  rw [erase, List.filter_cons_of_neg (by simp), List.filter_eq_self.2 hrest]

/-- A lookup in an ascending list finds exactly its entries. -/
theorem find?_eq_some_iff_mem {k : κ} {value : α} {entries : List (κ × α)}
    (h : Ascending entries) : find? k entries = some value ↔ (k, value) ∈ entries := by
  induction entries with
  | nil => simp [find?]
  | cons entry rest ih =>
    obtain ⟨hhead, hrest⟩ := List.pairwise_cons.1 h
    rw [find?_cons, List.mem_cons]
    by_cases hk : compare k entry.1 = .eq
    · have hkey : k = entry.1 := Std.LawfulEqCmp.eq_of_compare hk
      have habsent : (k, value) ∉ rest := by
        intro hmem
        have hlt := hhead _ hmem
        rw [← hkey] at hlt
        exact not_lt_self k hlt
      rw [if_pos hk, hkey]
      simp only [Option.some.injEq, Prod.ext_iff, true_and]
      constructor
      · exact fun hv => .inl hv.symm
      · rintro (hv | hmem)
        · exact hv.symm
        · exact absurd (hkey ▸ hmem) habsent
    · have hne : (k, value) ≠ entry := by
        intro he
        exact hk (by rw [← he]; exact Std.ReflCmp.compare_self)
      rw [if_neg hk, ih hrest]
      simp [hne]

/-- Ascending lists with the same lookups are equal. -/
theorem Ascending.ext {a b : List (κ × α)} (ha : Ascending a) (hb : Ascending b)
    (h : ∀ k, find? k a = find? k b) : a = b := by
  have hperm : a.Perm b := by
    refine (List.perm_ext_iff_of_nodup ha.nodup hb.nodup).2 ?_
    rintro ⟨k, value⟩
    rw [← find?_eq_some_iff_mem ha, ← find?_eq_some_iff_mem hb, h k]
  refine hperm.eq_of_pairwise ?_ ha hb
  intro x y _ _ hxy hyx
  exact absurd (Std.TransCmp.lt_trans hxy hyx) (not_lt_self x.1)

theorem find?_filter (keep : κ → α → Bool) (k : κ) {entries : List (κ × α)}
    (h : Ascending entries) :
    find? k (entries.filter fun entry => keep entry.1 entry.2) =
      (find? k entries).filter (keep k) := by
  have hfiltered : Ascending (entries.filter fun entry => keep entry.1 entry.2) := h.filter _
  ext value
  rw [find?_eq_some_iff_mem hfiltered, List.mem_filter, Option.filter_eq_some_iff,
    find?_eq_some_iff_mem h]

variable [DecidableEq κ]

theorem find?_foldl_insert (k : κ) (pairs entries : List (κ × α)) :
    find? k (pairs.foldl (fun entries pair => insert pair.1 pair.2 entries) entries) =
      ((pairs.reverse.find? fun pair => pair.1 = k).map Prod.snd).or (find? k entries) := by
  induction pairs generalizing entries with
  | nil => simp
  | cons pair pairs ih =>
    rw [List.foldl_cons, ih, find?_insert, List.reverse_cons, List.find?_append]
    cases hfound : pairs.reverse.find? fun pair => pair.1 = k with
    | some found => simp
    | none =>
      by_cases hk : k = pair.1
      · subst hk
        simp [Std.ReflCmp.compare_self]
      · have hc : compare k pair.1 ≠ .eq := fun hc => hk (Std.LawfulEqCmp.eq_of_compare hc)
        simp [hc, Ne.symm hk]

theorem find?_ofList (k : κ) (pairs : List (κ × α)) :
    find? k (ofList pairs) = (pairs.reverse.find? fun pair => pair.1 = k).map Prod.snd := by
  rw [ofList, find?_foldl_insert]
  simp [find?]

/-- In an ascending list the last entry of a key is its only one. -/
theorem find?_reverse {entries : List (κ × α)} (h : Ascending entries) (k : κ) :
    ((entries.reverse.find? fun pair => pair.1 = k).map Prod.snd) = find? k entries := by
  ext value
  rw [find?_eq_some_iff_mem h]
  constructor
  · intro hfound
    obtain ⟨pair, hpair, rfl⟩ := Option.map_eq_some_iff.1 hfound
    have hmem := List.mem_reverse.1 (List.mem_of_find?_eq_some hpair)
    have hk : pair.1 = k := by simpa using List.find?_some hpair
    exact hk ▸ hmem
  · intro hmem
    cases hfound : entries.reverse.find? fun pair => pair.1 = k with
    | none =>
      have := List.find?_eq_none.1 hfound (k, value) (List.mem_reverse.2 hmem)
      simp at this
    | some pair =>
      have hpair := List.mem_reverse.1 (List.mem_of_find?_eq_some hfound)
      have hk : pair.1 = k := by simpa using List.find?_some hfound
      have h1 := (find?_eq_some_iff_mem h).2 (hk ▸ hpair : (k, pair.2) ∈ entries)
      rw [(find?_eq_some_iff_mem h).2 hmem] at h1
      exact h1.symm

/-- Building a map from an ascending list keeps the list. -/
theorem ofList_eq_self {entries : List (κ × α)} (h : Ascending entries) :
    ofList entries = entries := by
  refine (ascending_ofList entries).ext h fun k => ?_
  rw [find?_ofList, find?_reverse h]

omit [Std.TransOrd κ] [DecidableEq κ] in
theorem perm_insert {key : κ} {value : α} {entries : List (κ × α)}
    (h : ∀ entry ∈ entries, entry.1 ≠ key) :
    (insert key value entries).Perm ((key, value) :: entries) := by
  induction entries with
  | nil => exact List.Perm.refl _
  | cons entry rest ih =>
    obtain ⟨hentry, hrest⟩ := List.forall_mem_cons.1 h
    rw [insert]
    split
    · exact List.Perm.refl _
    · rename_i heq
      exact absurd (Std.LawfulEqCmp.eq_of_compare heq).symm hentry
    · exact ((ih hrest).cons entry).trans (List.Perm.swap _ _ _)

omit [Std.TransOrd κ] [DecidableEq κ] in
/-- Pairs of distinct keys are all kept. By induction on the pairs, inserted one after the other. -/
theorem perm_ofList {pairs : List (κ × α)} (h : (pairs.map Prod.fst).Nodup) :
    (ofList pairs).Perm pairs := by
  have hfold : ∀ (pairs entries : List (κ × α)), ((pairs ++ entries).map Prod.fst).Nodup →
      (pairs.foldl (fun entries pair => insert pair.1 pair.2 entries) entries).Perm
        (pairs ++ entries) := by
    intro pairs
    induction pairs with
    | nil => exact fun entries _ => List.Perm.refl _
    | cons pair pairs ih =>
      intro entries hnodup
      have hnew : ∀ entry ∈ entries, entry.1 ≠ pair.1 := by
        rw [List.cons_append, List.map_cons, List.nodup_cons] at hnodup
        intro entry hentry heq
        exact hnodup.1 (heq ▸ List.mem_map_of_mem (List.mem_append_right pairs hentry))
      have hperm : (pairs ++ insert pair.1 pair.2 entries).Perm (pair :: pairs ++ entries) :=
        ((perm_insert hnew).append_left pairs).trans List.perm_middle
      exact (ih _ ((hperm.map Prod.fst).nodup_iff.2 hnodup)).trans hperm
  have hall := hfold pairs [] (by rwa [List.append_nil])
  rwa [List.append_nil] at hall

omit [DecidableEq κ] in
/-- Pairs of distinct keys make up one list in whatever order they are given. -/
theorem ofList_eq_iff_perm {xs ys : List (κ × α)} (hx : (xs.map Prod.fst).Nodup)
    (hy : (ys.map Prod.fst).Nodup) : ofList xs = ofList ys ↔ xs.Perm ys := by
  constructor
  · intro h
    exact (perm_ofList hx).symm.trans (h ▸ perm_ofList hy)
  · intro h
    refine (ascending_ofList xs).ext (ascending_ofList ys) fun k => Option.ext fun value => ?_
    rw [find?_eq_some_iff_mem (ascending_ofList xs), find?_eq_some_iff_mem (ascending_ofList ys),
      (perm_ofList hx).mem_iff, (perm_ofList hy).mem_iff, h.mem_iff]

end Ordered

end Entries

namespace SortedMap

variable {κ : Type u} {α : Type v} {β : Type w} [Ord κ]

theorem entries_injective {a b : SortedMap κ α} (h : a.entries = b.entries) : a = b := by
  cases a
  cases b
  cases h
  rfl

/-- The map with `f` applied to each value. -/
def mapValues (f : α → β) (m : SortedMap κ α) : SortedMap κ β :=
  ⟨m.entries.map fun entry => (entry.1, f entry.2),
    Entries.ascending_map_snd (fun entry => f entry.2) m.ascending⟩

/-- The entries that are kept and the others. -/
theorem size_filter (keep : κ → α → Bool) (m : SortedMap κ α) :
    (m.entries.filter fun entry => !keep entry.1 entry.2).length + (m.filter keep).size =
      m.size := by
  have hsplit := List.length_eq_length_filter_add (l := m.entries) fun entry =>
    keep entry.1 entry.2
  rw [Nat.add_comm]
  exact hsplit.symm

theorem find?_mapValues (f : α → β) (m : SortedMap κ α) (k : κ) :
    (m.mapValues f).find? k = (m.find? k).map f :=
  Entries.find?_map_snd f k m.entries

theorem contains_iff {m : SortedMap κ α} {k : κ} :
    m.contains k = true ↔ ∃ value, m.find? k = some value :=
  Option.isSome_iff_exists

section Ordered

variable [Std.TransOrd κ] [Std.LawfulEqOrd κ]

/-- Maps with the same lookups are equal. -/
@[ext]
theorem ext {a b : SortedMap κ α} (h : ∀ k, a.find? k = b.find? k) : a = b :=
  entries_injective (a.ascending.ext b.ascending h)

theorem find?_eq_some_iff_mem {m : SortedMap κ α} {k : κ} {value : α} :
    m.find? k = some value ↔ (k, value) ∈ m.entries :=
  Entries.find?_eq_some_iff_mem m.ascending

theorem mem_keys {m : SortedMap κ α} {k : κ} : k ∈ m.keys ↔ ∃ value, m.find? k = some value := by
  simp only [keys, List.mem_map, find?_eq_some_iff_mem]
  constructor
  · rintro ⟨entry, hentry, rfl⟩
    exact ⟨entry.2, hentry⟩
  · rintro ⟨value, hmem⟩
    exact ⟨_, hmem, rfl⟩

omit [Std.LawfulEqOrd κ] in
theorem nodup_keys (m : SortedMap κ α) : m.keys.Nodup := by
  refine List.pairwise_map.2 (m.ascending.imp ?_)
  intro a b hab heq
  rw [heq] at hab
  exact Entries.not_lt_self b.1 hab

/-- A map that has only some keys is no larger than their list. -/
theorem size_le {m : SortedMap κ α} {keys : List κ}
    (h : ∀ k value, m.find? k = some value → k ∈ keys) : m.size ≤ keys.length := by
  have hsubset : m.keys ⊆ keys := fun k hk => by
    obtain ⟨value, hfind⟩ := mem_keys.1 hk
    exact h k value hfind
  rw [size, ← List.length_map Prod.fst]
  exact (m.nodup_keys.subperm hsubset).length_le

theorem mem_values {m : SortedMap κ α} {value : α} :
    value ∈ m.values ↔ ∃ k, m.find? k = some value := by
  simp only [values, List.mem_map, find?_eq_some_iff_mem, Prod.exists, exists_eq_right]

theorem isEmpty_iff {m : SortedMap κ α} : m.isEmpty = true ↔ ∀ k, m.find? k = none := by
  constructor
  · intro h k
    simp [find?, List.isEmpty_iff.1 h, Entries.find?]
  · intro h
    refine List.isEmpty_iff.2 (List.eq_nil_iff_forall_not_mem.2 fun entry hentry => ?_)
    have := find?_eq_some_iff_mem.2 hentry
    rw [h] at this
    cases this

theorem mapValues_eq_self {f : α → α} {m : SortedMap κ α}
    (h : ∀ k value, m.find? k = some value → f value = value) : m.mapValues f = m := by
  ext k value
  rw [find?_mapValues]
  cases hfind : m.find? k with
  | none => rfl
  | some found => rw [Option.map_some, h k found hfind]

theorem find?_filter (keep : κ → α → Bool) (m : SortedMap κ α) (k : κ) :
    (m.filter keep).find? k = (m.find? k).filter (keep k) :=
  Entries.find?_filter keep k m.ascending

theorem ofList_entries (m : SortedMap κ α) [DecidableEq κ] : ofList m.entries = m :=
  entries_injective (Entries.ofList_eq_self m.ascending)

variable [DecidableEq κ]

theorem find?_insert_eq (m : SortedMap κ α) (key : κ) (value : α) (k : κ) :
    (m.insert key value).find? k = if k = key then some value else m.find? k := by
  rw [find?_insert]
  exact if_congr Std.LawfulEqCmp.compare_eq_iff_eq rfl rfl

theorem find?_insert_self (m : SortedMap κ α) (key : κ) (value : α) :
    (m.insert key value).find? key = some value := by
  rw [find?_insert_eq, if_pos rfl]

omit [Std.TransOrd κ] in
theorem find?_erase (m : SortedMap κ α) (key k : κ) :
    (m.erase key).find? k = if k = key then none else m.find? k :=
  Entries.find?_erase key k m.entries

omit [Std.TransOrd κ] in
theorem find?_erase_eq_some {m : SortedMap κ α} {key k : κ} {value : α} :
    (m.erase key).find? k = some value ↔ k ≠ key ∧ m.find? k = some value := by
  rw [find?_erase, Option.ite_none_left_eq_some]

theorem erase_eq_self {m : SortedMap κ α} {key : κ} (h : m.find? key = none) :
    m.erase key = m := by
  ext k
  rw [find?_erase]
  split
  · rename_i hk
    rw [hk, h]
  · rfl

theorem erase_insert_self (m : SortedMap κ α) (key : κ) (value : α) :
    (m.insert key value).erase key = m.erase key := by
  ext k
  simp only [find?_erase, find?_insert_eq]
  split <;> rfl

theorem insert_erase_self (m : SortedMap κ α) (key : κ) (value : α) :
    (m.erase key).insert key value = m.insert key value := by
  ext k
  simp only [find?_erase, find?_insert_eq]
  split <;> rfl

/-- An entry, and the others. -/
theorem perm_erase {m : SortedMap κ α} {key : κ} {value : α} (h : m.find? key = some value) :
    m.entries.Perm ((key, value) :: (m.erase key).entries) := by
  have hgone : ∀ value, (key, value) ∉ (m.erase key).entries := by
    intro value hmem
    have hfind := find?_eq_some_iff_mem.2 hmem
    rw [find?_erase, if_pos rfl] at hfind
    cases hfind
  refine (List.perm_ext_iff_of_nodup m.ascending.nodup
    (List.nodup_cons.2 ⟨hgone value, (m.erase key).ascending.nodup⟩)).2 ?_
  rintro ⟨k, found⟩
  rw [List.mem_cons, ← find?_eq_some_iff_mem, ← find?_eq_some_iff_mem, find?_erase]
  by_cases hk : k = key
  · simp [hk, h, eq_comm]
  · simp [hk]

theorem size_erase {m : SortedMap κ α} {key : κ} {value : α} (h : m.find? key = some value) :
    (m.erase key).size + 1 = m.size :=
  (perm_erase h).length_eq.symm

theorem find?_ofList (pairs : List (κ × α)) (k : κ) :
    (ofList pairs).find? k = (pairs.reverse.find? fun pair => pair.1 = k).map Prod.snd :=
  Entries.find?_ofList k pairs

theorem find?_foldl_insert (m : SortedMap κ α) (pairs : List (κ × α)) (k : κ) :
    (pairs.foldl (fun m pair => m.insert pair.1 pair.2) m).find? k =
      ((pairs.reverse.find? fun pair => pair.1 = k).map Prod.snd).or (m.find? k) := by
  induction pairs generalizing m with
  | nil => simp
  | cons pair pairs ih =>
    rw [List.foldl_cons, ih, find?_insert_eq, List.reverse_cons, List.find?_append]
    cases hfound : pairs.reverse.find? fun pair => pair.1 = k with
    | some found => simp
    | none =>
      by_cases hk : k = pair.1
      · simp [hk]
      · simp [hk, Ne.symm hk]

/-- Items under keys of their own change the entries of these keys, one after the other, and leave
the others. -/
theorem find?_foldl_update {ι : Type w} (key : ι → κ) (f : ι → Option α → α) {items : List ι}
    (hdistinct : (items.map key).Nodup) (m : SortedMap κ α) (k : κ) :
    (items.foldl (fun m item => m.insert (key item) (f item (m.find? (key item)))) m).find? k =
      ((items.find? fun item => key item = k).map fun item => f item (m.find? k)).or
        (m.find? k) := by
  induction items generalizing m with
  | nil => rfl
  | cons item items ih =>
    rw [List.map_cons, List.nodup_cons] at hdistinct
    obtain ⟨hnew, hrest⟩ := hdistinct
    rw [List.foldl_cons, ih hrest, find?_insert_eq, List.find?_cons]
    by_cases hk : k = key item
    · have hnone : items.find? (fun item => key item = k) = none :=
        List.find?_eq_none.2 fun other hother hsame =>
          hnew (List.mem_map.2 ⟨other, hother, (of_decide_eq_true hsame).trans hk⟩)
      rw [hnone, if_pos hk, decide_eq_true hk.symm, hk]
      rfl
    · rw [if_neg hk, decide_eq_false (Ne.symm hk)]

/-- What is written entry by entry of another map wins, and may depend on what was there. -/
theorem find?_foldl_entries (f : κ → α → Option β → β) (top : SortedMap κ α) (m : SortedMap κ β)
    (k : κ) :
    (top.entries.foldl (fun m entry => m.insert entry.1 (f entry.1 entry.2 (m.find? entry.1)))
        m).find? k = ((top.find? k).map fun value => f k value (m.find? k)).or (m.find? k) := by
  rw [find?_foldl_update Prod.fst (fun entry held => f entry.1 entry.2 held) top.nodup_keys,
    Entries.map_find?]
  rfl

/-- The entries laid on top win. -/
theorem find?_overlay (m top : SortedMap κ α) (k : κ) :
    (m.overlay top).find? k = (top.find? k).or (m.find? k) := by
  rw [overlay, find?_foldl_insert, Entries.find?_reverse top.ascending]
  rfl

end Ordered

section Ordered

variable [Std.TransOrd κ] [Std.LawfulEqOrd κ] [DecidableEq κ]

theorem overlay_empty (m : SortedMap κ α) : (∅ : SortedMap κ α).overlay m = m := by
  refine ext fun k => ?_
  rw [find?_overlay]
  exact Option.or_none

/-- Laying down what is there already changes nothing. -/
theorem overlay_eq_self {m top : SortedMap κ α}
    (h : ∀ k value, top.find? k = some value → m.find? k = some value) : m.overlay top = m := by
  refine ext fun k => ?_
  rw [find?_overlay]
  cases htop : top.find? k with
  | none => rfl
  | some value => exact (h k value htop).symm

theorem mapValues_overlay (f : α → β) (m top : SortedMap κ α) :
    (m.overlay top).mapValues f = (m.mapValues f).overlay (top.mapValues f) := by
  ext k
  simp only [find?_mapValues, find?_overlay]
  cases top.find? k <;> rfl

end Ordered

/-- Every value of the map has the property. -/
def All (P : α → Prop) (m : SortedMap κ α) : Prop := ∀ k value, m.find? k = some value → P value

section All

variable {P : α → Prop} {m top : SortedMap κ α}

theorem all_empty : (∅ : SortedMap κ α).All P :=
  fun _ _ h => absurd h.symm (Option.some_ne_none _)

theorem All.imp {P' : α → Prop} (h : m.All P) (himp : ∀ value, P value → P' value) : m.All P' :=
  fun k value hfind => himp value (h k value hfind)

theorem All.getD {k : κ} {value : α} (h : m.All P) (hvalue : P value) :
    P ((m.find? k).getD value) := by
  cases hfind : m.find? k with
  | none => exact hvalue
  | some found => exact h k found hfind

theorem All.mapValues {Q : β → Prop} {f : α → β} (h : m.All P)
    (hf : ∀ value, P value → Q (f value)) : (m.mapValues f).All Q := by
  intro k value hfind
  rw [find?_mapValues] at hfind
  obtain ⟨old, hold, rfl⟩ := Option.map_eq_some_iff.1 hfind
  exact hf old (h k old hold)

variable [Std.TransOrd κ] [Std.LawfulEqOrd κ]

theorem all_iff_values : m.All P ↔ ∀ value ∈ m.values, P value := by
  simp only [All, mem_values]
  exact ⟨fun h value ⟨k, hfind⟩ => h k value hfind, fun h k value hfind => h value ⟨k, hfind⟩⟩

theorem All.of_mem {entry : κ × α} (h : m.All P) (hentry : entry ∈ m.entries) : P entry.2 :=
  h entry.1 entry.2 (find?_eq_some_iff_mem.2 hentry)

theorem all_ofList {pairs : List (κ × α)} (h : ∀ pair ∈ pairs, P pair.2) : (ofList pairs).All P :=
  fun _ _ hfind => Entries.forall_mem_ofList h _ (Entries.mem_of_find? hfind)

theorem All.filter {keep : κ → α → Bool} (h : m.All P) : (m.filter keep).All P := by
  intro k value hfind
  rw [find?_filter] at hfind
  exact h k value (Option.filter_eq_some_iff.1 hfind).1

variable [DecidableEq κ]

omit [Std.TransOrd κ] in
theorem All.erase {key : κ} (h : m.All P) : (m.erase key).All P :=
  fun k value hfind => h k value (find?_erase_eq_some.1 hfind).2

theorem All.insert {key : κ} {value : α} (h : m.All P) (hvalue : P value) :
    (m.insert key value).All P := by
  intro k found hfind
  rw [find?_insert_eq] at hfind
  split at hfind
  · cases hfind
    exact hvalue
  · exact h k found hfind

theorem All.overlay (h : m.All P) (htop : top.All P) : (m.overlay top).All P := by
  intro k value hfind
  rw [find?_overlay] at hfind
  cases hk : top.find? k with
  | none =>
    rw [hk, Option.none_or] at hfind
    exact h k value hfind
  | some found =>
    rw [hk, Option.some_or] at hfind
    cases hfind
    exact htop k _ hk

end All

end SortedMap

namespace SortedSet

variable {κ : Type u} [Ord κ] [Std.TransOrd κ] [Std.LawfulEqOrd κ]

@[ext]
theorem ext {s t : SortedSet κ} (h : ∀ x, s.contains x = t.contains x) : s = t := by
  cases s with
  | mk s =>
  cases t with
  | mk t =>
  congr 1
  refine SortedMap.ext fun k => ?_
  have hk : (s.find? k).isSome = (t.find? k).isSome := h k
  cases hs : s.find? k <;> cases ht : t.find? k <;> simp_all

theorem mem_toList {s : SortedSet κ} {x : κ} : x ∈ s.toList ↔ s.contains x = true := by
  rw [toList, SortedMap.mem_keys, contains, SortedMap.contains_iff]

variable [DecidableEq κ]

theorem contains_insert (s : SortedSet κ) (x y : κ) :
    (s.insert x).contains y = (decide (y = x) || s.contains y) := by
  simp only [contains, insert, SortedMap.contains, SortedMap.find?_insert_eq]
  split <;> simp [*]

theorem contains_foldl_insert (xs : List κ) (s : SortedSet κ) (y : κ) :
    (xs.foldl insert s).contains y = (decide (y ∈ xs) || s.contains y) := by
  induction xs generalizing s with
  | nil => simp
  | cons x xs ih =>
    rw [List.foldl_cons, ih, contains_insert]
    by_cases hx : y = x <;> simp [hx]

theorem contains_ofList (xs : List κ) (y : κ) : (ofList xs).contains y = decide (y ∈ xs) := by
  rw [ofList, contains_foldl_insert]
  exact Bool.or_false _

theorem contains_union (s t : SortedSet κ) (y : κ) :
    (s ∪ t).contains y = (s.contains y || t.contains y) := by
  show (t.toList.foldl insert s).contains y = _
  rw [contains_foldl_insert, Bool.or_comm]
  by_cases h : t.contains y = true <;> simp [mem_toList, h]

end SortedSet
end RecordCache
