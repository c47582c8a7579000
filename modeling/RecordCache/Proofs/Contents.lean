import RecordCache.Batch
import RecordCache.Proofs.Batch
import RecordCache.Proofs.Record.Shape
import RecordCache.Record.References

/-!
# The contents of a tier

What a tier holds, seen from outside, is a map from keys to records; what an operation does to a
tier, it does to this map, however the tier keeps it.

* `Contents.afterReading` is what a read leaves;
* `Contents.merge` merges a batch, one record after the other;
* `Contents.Removal` says that the records of some keys are gone, and how many they are;
* `Contents.Reached` are the keys that a removal reaches, and `Contents.Explored` what a search for
  them keeps, in whatever order it goes;
* `Contents.Regular`: all records can be read back as they were written.
-/

namespace RecordCache

/-- The record has a field and one of the keys, and is read from its row as it was written. -/
structure Record.Regular (K : Key → Prop) (r : Record) : Prop where
  key : K r.key
  fields : r.isEmpty = false
  exact : r.Exact

theorem Record.Regular.stamped {K : Key → Prop} {r : Record} (h : r.Regular K) (trackDates : Bool)
    (headers : Headers) : (r.stamped trackDates headers).Regular K where
  key := by
    rw [key_stamped]
    exact h.key
  fields := by
    rw [isEmpty, fields_stamped]
    exact h.fields
  exact := h.exact.stamped fun _ => ⟨.integer _, Nat.zero_le _⟩

/-- Records by key. -/
abbrev Contents := SortedMap Key Record

namespace Contents

/-- What is left after some keys were read, each of which is evicted if `evict` says so. -/
def afterReading (evict : Bool) (keys : List Key) (c : Contents) : Contents :=
  if evict then keys.foldl SortedMap.erase c else c

theorem find?_afterReading (evict : Bool) (keys : List Key) (c : Contents) (key : Key) :
    (c.afterReading evict keys).find? key =
      if evict = true ∧ key ∈ keys then none else c.find? key := by
  have hfold : ∀ (keys : List Key) (c : Contents), (keys.foldl SortedMap.erase c).find? key =
      if key ∈ keys then none else c.find? key := by
    intro keys
    induction keys with
    | nil => exact fun _ => rfl
    | cons k keys ih =>
      intro c
      rw [List.foldl_cons, ih, SortedMap.find?_erase]
      by_cases hk : key = k <;> simp [hk]
  cases evict with
  | false => rfl
  | true =>
    rw [afterReading, if_pos rfl, hfold]
    exact if_congr (by simp) rfl rfl

/-- The places of a list at which a read finds nothing, when the keys are read one after the other
and each is evicted if `evict` says so. -/
def missed (evict : Bool) (c : Contents) : List Key → List Key
  | [] => []
  | key :: keys =>
    let rest := missed evict (c.afterReading evict [key]) keys
    if c.contains key then rest else key :: rest

theorem missed_sublist (evict : Bool) (c : Contents) (keys : List Key) :
    (c.missed evict keys).Sublist keys := by
  induction keys generalizing c with
  | nil => exact List.Sublist.refl []
  | cons key keys ih =>
    rw [missed]
    split
    · exact (ih _).cons key
    · exact (ih _).cons_cons key

/-- A key that is there is missed at no place, or at all but the first when the read evicts. -/
theorem count_missed (evict : Bool) (c : Contents) (keys : List Key) (key : Key) :
    (c.missed evict keys).count key =
      if c.contains key then if evict then keys.count key - 1 else 0 else keys.count key := by
  induction keys generalizing c with
  | nil => cases evict <;> simp [missed]
  | cons first keys ih =>
    have hleft : (c.afterReading evict [first]).contains key =
        (c.contains key && !(evict && decide (key = first))) := by
      rw [SortedMap.contains, find?_afterReading, SortedMap.contains]
      cases evict <;> by_cases hkey : key = first <;> simp [hkey]
    by_cases hkey : first = key
    · subst hkey
      rw [missed, List.count_cons]
      cases hfirst : c.contains first <;> cases evict <;> simp [ih, hleft, hfirst]
    · have hskip : (c.missed evict (first :: keys)).count key =
          ((c.afterReading evict [first]).missed evict keys).count key := by
        rw [missed]
        split
        · rfl
        · exact List.count_cons_of_ne hkey
      rw [hskip, ih, hleft, decide_eq_false (Ne.symm hkey), Bool.and_false, Bool.not_false,
        Bool.and_true, List.count_cons_of_ne hkey]

theorem not_mem_missed {c : Contents} {key : Key} (hkey : c.contains key = true)
    (keys : List Key) : key ∉ c.missed false keys := by
  rw [← List.count_eq_zero, count_missed, if_pos hkey]
  rfl

/-- Merges a record with the one under its key, if there is one. -/
def mergeOne (headers : Headers) (merger : Merger) (result : NameSet × Contents)
    (incoming : Record) : NameSet × Contents :=
  match result.2.find? incoming.key with
  | none => (result.1 ∪ incoming.fieldPaths, result.2.insert incoming.key incoming)
  | some existing =>
    let merged := merger.merge existing incoming headers
    (result.1 ∪ merged.changed, result.2.insert merged.record.key merged.record)

/-- Merges records one after the other, and gives the paths of the fields that changed. -/
def merge (headers : Headers) (merger : Merger) (records : List Record) (c : Contents) :
    NameSet × Contents :=
  records.foldl (mergeOne headers merger) (∅, c)

/-- The records are under their own keys, and can be read back as they were written. -/
structure Regular (K : Key → Prop) (c : Contents) : Prop where
  keyed : Batch.Keyed c
  all : c.All (Record.Regular K)

section Regular

variable {K : Key → Prop} {c : Contents} {headers : Headers} {merger : Merger}

theorem regular_empty : Regular K ∅ := ⟨Batch.keyed_empty, SortedMap.all_empty⟩

theorem Regular.insert (h : c.Regular K) {r : Record} (hr : r.Regular K) :
    Regular K (c.insert r.key r) :=
  ⟨h.keyed.insert r, h.all.insert hr⟩

/-- Merging keeps what is needed to read a record back. -/
theorem regular_merge (hmerger : merger ∈ Merger.fieldwise) {existing incoming : Record}
    (hexisting : existing.Regular K) (hincoming : incoming.Regular K) :
    (merger.merge existing incoming headers).record.Regular K where
  key := by
    rw [(Merger.byFields_of_mem hmerger).key_merge]
    exact hexisting.key
  fields := by
    have hfields := hexisting.fields
    rw [Record.isEmpty, Bool.eq_false_iff, Ne, SortedMap.isEmpty_iff] at hfields ⊢
    intro hnone
    refine hfields fun field => ?_
    cases hfind : existing.fields.find? field with
    | none => rfl
    | some value =>
      have hkept : (merger.merge existing incoming headers).record.fields.contains field = true :=
        (Merger.byFields_of_mem hmerger).hasField_merge (SortedMap.contains_iff.2 ⟨value, hfind⟩)
      rw [SortedMap.contains, hnone] at hkept
      cases hkept
  exact := Merger.all_merge hmerger (fun _ => ⟨.integer _, Nat.zero_le _⟩)
    (fun _ => ⟨.string _, Nat.zero_le _⟩) hexisting.exact hincoming.exact

theorem Regular.mergeOne (h : c.Regular K) (hmerger : merger ∈ Merger.fieldwise) (paths : NameSet)
    {incoming : Record} (hincoming : incoming.Regular K) :
    (mergeOne headers merger (paths, c) incoming).2.Regular K := by
  rw [Contents.mergeOne]
  cases hfind : c.find? incoming.key with
  | none => exact h.insert hincoming
  | some existing => exact h.insert (regular_merge hmerger (h.all _ _ hfind) hincoming)

/-- So does removing records. -/
theorem Regular.of_find? {c' : Contents} (h : c.Regular K)
    (hsub : ∀ key r, c'.find? key = some r → c.find? key = some r) : c'.Regular K :=
  ⟨fun key r hfind => h.keyed key r (hsub key r hfind),
    fun key r hfind => h.all key r (hsub key r hfind)⟩

theorem Regular.afterReading (h : c.Regular K) (evict : Bool) (keys : List Key) :
    (c.afterReading evict keys).Regular K := by
  refine h.of_find? fun key r hfind => ?_
  rw [find?_afterReading] at hfind
  split at hfind
  · cases hfind
  · exact hfind

end Regular

/-- So many records were removed: those of the keys that are gone, and no others. -/
structure Removal (c : Contents) (gone : Key → Prop) (count : Nat) (c' : Contents) : Prop where
  removed : ∀ key, gone key → c'.find? key = none
  kept : ∀ key, ¬gone key → c'.find? key = c.find? key
  counted : count + c'.size = c.size

section Removal

variable {c c' c'' : Contents} {gone : Key → Prop} {n n' : Nat}

theorem Removal.of_find? (h : c.Removal gone n c') {key : Key} {r : Record}
    (hfind : c'.find? key = some r) : c.find? key = some r := by
  by_cases hkey : gone key
  · rw [h.removed key hkey] at hfind
    cases hfind
  · rw [← h.kept key hkey]
    exact hfind

/-- What is left is determined, and so is the number of records removed. -/
theorem Removal.unique (h : c.Removal gone n c') (h' : c.Removal gone n' c'') :
    n = n' ∧ c' = c'' := by
  have hsame : c' = c'' := SortedMap.ext fun key => by
    by_cases hkey : gone key
    · rw [h.removed key hkey, h'.removed key hkey]
    · rw [h.kept key hkey, h'.kept key hkey]
  have hcount := h.counted.trans h'.counted.symm
  rw [hsame] at hcount
  exact ⟨Nat.add_right_cancel hcount, hsame⟩

end Removal

/-- The keys that a removal reaches: those given and, when it cascades, all that the records of keys
reached refer to. -/
inductive Reached (c : Contents) (cascade : Bool) (keys : List Key) : Key → Prop
  | given {key : Key} : key ∈ keys → Reached c cascade keys key
  | referred {key next : Key} {r : Record} : cascade = true → Reached c cascade keys key →
      c.find? key = some r → r.referencedKeys.contains next = true → Reached c cascade keys next

/-- A search for the keys reached has been to some keys, and is to go on with others: all given are
among them, and all that the records of the former refer to. -/
structure Explored (c : Contents) (cascade : Bool) (keys : List Key)
    (visited pending : Key → Prop) : Prop where
  reached : ∀ key, visited key ∨ pending key → Reached c cascade keys key
  given : ∀ key ∈ keys, visited key ∨ pending key
  referred : cascade = true → ∀ key r next, visited key → c.find? key = some r →
    r.referencedKeys.contains next = true → visited next ∨ pending next

section Explored

variable {c : Contents} {cascade : Bool} {keys : List Key} {visited pending : Key → Prop}

/-- A search begins with the keys given. -/
theorem explored_given {c : Contents} {cascade : Bool} (hvisited : ∀ key, ¬visited key)
    (hpending : ∀ key, pending key ↔ key ∈ keys) : Explored c cascade keys visited pending where
  reached key hkey := .given ((hpending key).1 (hkey.resolve_left (hvisited key)))
  given key hkey := .inr ((hpending key).2 hkey)
  referred _ key _ _ hkey := absurd hkey (hvisited key)

/-- A search goes on when it visits pending keys and takes up what their records refer to. -/
theorem Explored.advance (h : Explored c cascade keys visited pending)
    {visited' pending' : Key → Prop}
    (hkept : ∀ key, visited key ∨ pending key → visited' key ∨ pending' key)
    (hvisited : ∀ key, visited' key → visited key ∨ pending key)
    (hpending : ∀ key, pending' key → visited key ∨ pending key ∨ cascade = true ∧
      ∃ last r, pending last ∧ c.find? last = some r ∧ r.referencedKeys.contains key = true)
    (hreferred : cascade = true → ∀ key r next, visited' key → ¬visited key →
      c.find? key = some r → r.referencedKeys.contains next = true →
        visited' next ∨ pending' next) :
    Explored c cascade keys visited' pending' where
  reached key hkey := by
    rcases hkey with hkey | hkey
    · exact h.reached key (hvisited key hkey)
    · rcases hpending key hkey with hold | hold | ⟨hcascade, last, r, hlast, hfind, hrefers⟩
      · exact h.reached key (.inl hold)
      · exact h.reached key (.inr hold)
      · exact .referred hcascade (h.reached last (.inr hlast)) hfind hrefers
  given key hkey := hkept key (h.given key hkey)
  referred hcascade key r next hkey hfind hrefers := by
    by_cases hold : visited key
    · exact hkept next (h.referred hcascade key r next hold hfind hrefers)
    · exact hreferred hcascade key r next hkey hold hfind hrefers

/-- A search that has nothing to go on with has been to all keys reached. -/
theorem Explored.reached_iff (h : Explored c cascade keys visited pending)
    (hdone : ∀ key, ¬pending key) (key : Key) : Reached c cascade keys key ↔ visited key := by
  have hvisited {key : Key} (hkey : visited key ∨ pending key) : visited key :=
    hkey.resolve_right (hdone key)
  constructor
  · intro hreached
    induction hreached with
    | given hkey => exact hvisited (h.given _ hkey)
    | referred hcascade _ hfind hrefers ih =>
      exact hvisited (h.referred hcascade _ _ _ ih hfind hrefers)
  · exact fun hkey => h.reached key (.inl hkey)

end Explored
end Contents
end RecordCache
