/-!
# Maps in ascending order of key

A finite map is the list of its entries in strictly ascending order of key, so that a map has one
representation and printing it in order is reading the list.

* `Entries.insert`, `Entries.find?`, `Entries.erase` work on the plain list; `Entries.Ascending` is
  the order;
* `SortedMap κ α` is an ascending list with `find?`, `insert`, `erase`, `overlay`, `ofList`;
* `SortedSet κ` is a set of keys in the same form;
* `SortedMap.find?_insert` says what a write does to a lookup.
-/

namespace RecordCache

universe u v w

namespace Entries

variable {κ : Type u} {α : Type v} [Ord κ]

/-- Every key is smaller than all the keys after it. -/
def Ascending (entries : List (κ × α)) : Prop :=
  entries.Pairwise fun a b => compare a.1 b.1 = .lt

/-- Writes `value` under `key` at its place, replacing the entry the key had. -/
def insert (key : κ) (value : α) : List (κ × α) → List (κ × α)
  | [] => [(key, value)]
  | entry :: rest =>
    match compare key entry.1 with
    | .lt => (key, value) :: entry :: rest
    | .eq => (key, value) :: rest
    | .gt => entry :: insert key value rest

/-- The value of the first entry under `key`. -/
def find? (key : κ) : List (κ × α) → Option α
  | [] => none
  | entry :: rest => if compare key entry.1 = .eq then some entry.2 else find? key rest

/-- Drops every entry under `key`. -/
def erase (key : κ) (entries : List (κ × α)) : List (κ × α) :=
  entries.filter fun entry => compare key entry.1 != .eq

/-- The ascending list of the given pairs; of two pairs with one key the later counts. -/
def ofList (pairs : List (κ × α)) : List (κ × α) :=
  pairs.foldl (fun entries pair => insert pair.1 pair.2 entries) []

theorem mem_insert {key : κ} {value : α} {entry : κ × α} {entries : List (κ × α)}
    (h : entry ∈ insert key value entries) : entry = (key, value) ∨ entry ∈ entries := by
  induction entries with
  | nil => simpa [insert] using h
  | cons head rest ih =>
    rw [insert] at h
    split at h
    · simpa using h
    · simp only [List.mem_cons] at h ⊢
      exact h.imp_right .inr
    · simp only [List.mem_cons] at h ⊢
      rcases h with h | h
      · exact .inr (.inl h)
      · exact (ih h).imp_right .inr

theorem ascending_insert [Std.TransOrd κ] [Std.LawfulEqOrd κ] (key : κ) (value : α)
    {entries : List (κ × α)} (h : Ascending entries) : Ascending (insert key value entries) := by
  induction entries with
  | nil => simp [insert, Ascending]
  | cons head rest ih =>
    obtain ⟨hhead, hrest⟩ := List.pairwise_cons.1 h
    rw [insert]
    split <;> rename_i hc
    · refine List.pairwise_cons.2 ⟨?_, h⟩
      intro entry hentry
      rcases List.mem_cons.1 hentry with rfl | hentry
      · exact hc
      · exact Std.TransCmp.lt_trans hc (hhead entry hentry)
    · have hk := Std.LawfulEqCmp.eq_of_compare hc
      exact List.pairwise_cons.2 ⟨fun entry hentry => by rw [hk]; exact hhead entry hentry, hrest⟩
    · refine List.pairwise_cons.2 ⟨?_, ih hrest⟩
      intro entry hentry
      rcases mem_insert hentry with rfl | hentry
      · exact Std.OrientedCmp.gt_iff_lt.1 hc
      · exact hhead entry hentry

theorem ascending_ofList [Std.TransOrd κ] [Std.LawfulEqOrd κ] (pairs : List (κ × α)) :
    Ascending (ofList pairs) := by
  have hfold : ∀ (pairs entries : List (κ × α)), Ascending entries →
      Ascending (pairs.foldl (fun entries pair => insert pair.1 pair.2 entries) entries) := by
    intro pairs
    induction pairs with
    | nil => exact fun _ h => h
    | cons pair pairs ih => exact fun entries h => ih _ (ascending_insert pair.1 pair.2 h)
  exact hfold pairs [] List.Pairwise.nil

theorem find?_insert [Std.TransOrd κ] [Std.LawfulEqOrd κ] (key : κ) (value : α) (k : κ)
    (entries : List (κ × α)) :
    find? k (insert key value entries) =
      if compare k key = .eq then some value else find? k entries := by
  induction entries with
  | nil => rfl
  | cons head rest ih =>
    rw [insert]
    split <;> rename_i hc
    · rfl
    · have hk := Std.LawfulEqCmp.eq_of_compare hc
      simp only [find?, hk]
      split <;> rfl
    · simp only [find?, ih]
      by_cases h : compare k head.1 = .eq
      · have hkey : compare k key ≠ .eq := by
          intro hk
          have hself : compare k k = .eq := Std.ReflCmp.compare_self
          rw [← Std.LawfulEqCmp.eq_of_compare h, ← Std.LawfulEqCmp.eq_of_compare hk, hself] at hc
          exact absurd hc (by decide)
        simp [h, hkey]
      · simp [h]

end Entries

/-- A finite map: its entries in strictly ascending order of key. -/
structure SortedMap (κ : Type u) (α : Type v) [Ord κ] where
  entries : List (κ × α)
  ascending : Entries.Ascending entries

namespace SortedMap

variable {κ : Type u} {α : Type v} {β : Type w} [Ord κ]

instance [DecidableEq κ] [DecidableEq α] : DecidableEq (SortedMap κ α) := fun a b =>
  if h : a.entries = b.entries then
    isTrue (by cases a; cases b; cases h; rfl)
  else
    isFalse fun hab => h (congrArg entries hab)

/-- The map without entries. -/
def empty : SortedMap κ α := ⟨[], List.Pairwise.nil⟩

instance : EmptyCollection (SortedMap κ α) := ⟨empty⟩

instance : Inhabited (SortedMap κ α) := ⟨empty⟩

/-- The value under `key`. -/
def find? (m : SortedMap κ α) (key : κ) : Option α := Entries.find? key m.entries

/-- Whether `key` has an entry. -/
def contains (m : SortedMap κ α) (key : κ) : Bool := (m.find? key).isSome

/-- The keys in ascending order. -/
def keys (m : SortedMap κ α) : List κ := m.entries.map Prod.fst

/-- The values in ascending order of their keys. -/
def values (m : SortedMap κ α) : List α := m.entries.map Prod.snd

/-- The number of entries. -/
def size (m : SortedMap κ α) : Nat := m.entries.length

/-- Whether there is no entry. -/
def isEmpty (m : SortedMap κ α) : Bool := m.entries.isEmpty

/-- The map with only the entries that pass `keep`. -/
def filter (keep : κ → α → Bool) (m : SortedMap κ α) : SortedMap κ α :=
  ⟨m.entries.filter fun entry => keep entry.1 entry.2, m.ascending.filter _⟩

/-- The map without an entry under `key`. -/
def erase (m : SortedMap κ α) (key : κ) : SortedMap κ α :=
  ⟨Entries.erase key m.entries, m.ascending.filter _⟩

section Writes

variable [Std.TransOrd κ] [Std.LawfulEqOrd κ]

/-- The map with `value` under `key`. -/
def insert (m : SortedMap κ α) (key : κ) (value : α) : SortedMap κ α :=
  ⟨Entries.insert key value m.entries, Entries.ascending_insert key value m.ascending⟩

/-- The map of the given pairs; of two pairs with one key the later counts. -/
def ofList (pairs : List (κ × α)) : SortedMap κ α :=
  ⟨Entries.ofList pairs, Entries.ascending_ofList pairs⟩

/-- Both maps together, the entries of `top` winning. -/
def overlay (m top : SortedMap κ α) : SortedMap κ α :=
  top.entries.foldl (fun m entry => m.insert entry.1 entry.2) m

theorem find?_insert (m : SortedMap κ α) (key : κ) (value : α) (k : κ) :
    (m.insert key value).find? k = if compare k key = .eq then some value else m.find? k :=
  Entries.find?_insert key value k m.entries

end Writes

end SortedMap

/-- A finite set of names or keys, in ascending order. -/
structure SortedSet (κ : Type u) [Ord κ] where
  members : SortedMap κ Unit

namespace SortedSet

variable {κ : Type u} [Ord κ]

/-- The set without members. -/
def empty : SortedSet κ := ⟨∅⟩

instance : EmptyCollection (SortedSet κ) := ⟨empty⟩

instance : Inhabited (SortedSet κ) := ⟨empty⟩

instance [DecidableEq κ] : DecidableEq (SortedSet κ) := fun a b =>
  if h : a.members = b.members then
    isTrue (by cases a; cases b; cases h; rfl)
  else
    isFalse fun hab => h (congrArg members hab)

/-- The members in ascending order. -/
def toList (s : SortedSet κ) : List κ := s.members.keys

/-- Whether `x` is a member. -/
def contains (s : SortedSet κ) (x : κ) : Bool := s.members.contains x

/-- The number of members. -/
def size (s : SortedSet κ) : Nat := s.members.size

section Writes

variable [Std.TransOrd κ] [Std.LawfulEqOrd κ]

/-- The set with `x` as a member. -/
def insert (s : SortedSet κ) (x : κ) : SortedSet κ := ⟨s.members.insert x ()⟩

/-- The set of the listed members. -/
def ofList (xs : List κ) : SortedSet κ := xs.foldl insert ∅

/-- The members of both sets. -/
def union (s t : SortedSet κ) : SortedSet κ := t.toList.foldl insert s

instance : Union (SortedSet κ) := ⟨union⟩

end Writes

end SortedSet

end RecordCache
