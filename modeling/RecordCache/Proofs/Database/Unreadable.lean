import RecordCache.Proofs.Contents
import RecordCache.Proofs.Database.Rows
import RecordCache.Proofs.Store.Load

/-!
# Rows that cannot be read

The blob of a row may hold any text. A statement that meets a row whose blob is no record fails, and
apart from that only for reasons of its own: there is no table, or it binds too many parameters.

* `Detects` says when a computation ends with an error about a row;
* `Database.Unreadable` says that a key has a row that cannot be read, and `Database.readable` are
  the records of the rows that can;
* `Database.Serves` says that no statement is refused, whatever the keys;
* `Database.select_detects`: reading some keys detects the unreadable rows among theirs.
-/

namespace RecordCache

universe u

/-- The computation ends with a result that has the property when there is no defect; it ends with
an error about a row only for a defect, and with any other error only for a refusal. -/
def Detects {α : Type u} (refusal defect : Prop) (P : α → Prop) : Except StorageError α → Prop
  | .ok a => ¬defect ∧ P a
  | .error error => if error.isCorrupted then defect else refusal

namespace Detects

variable {α β : Type u} {refusal defect first : Prop} {P : α → Prop} {Q : β → Prop}

/-- One after the other, where the second is to find what the first did not. -/
theorem bind {x : Except StorageError α} {f : α → Except StorageError β}
    (h : Detects refusal first P x) (hfirst : first → defect)
    (hf : ∀ a, ¬first → P a → Detects refusal defect Q (f a)) :
    Detects refusal defect Q (x >>= f) := by
  cases x with
  | ok a => exact hf a h.1 h.2
  | error error =>
    show if error.isCorrupted then defect else refusal
    have herror : if error.isCorrupted then first else refusal := h
    split
    · rw [if_pos ‹_›] at herror
      exact hfirst herror
    · rwa [if_neg ‹_›] at herror

theorem map {x : Except StorageError α} {f : α → β} (h : Detects refusal defect P x)
    (hf : ∀ a, P a → Q (f a)) : Detects refusal defect Q (f <$> x) := by
  cases x with
  | ok a => exact ⟨h.1, hf a h.2⟩
  | error error => exact h

/-- A computation that fails for no row. -/
theorem of_clean {x : Except StorageError α} (h : Clean P x) (hgood : ¬defect)
    (hrefusal : ¬refusal → ∃ a, x = .ok a) : Detects refusal defect P x := by
  cases x with
  | ok a => exact ⟨hgood, h⟩
  | error error =>
    have herror : error.isCorrupted = false := h
    show if error.isCorrupted then defect else refusal
    rw [herror]
    by_contra hserved
    obtain ⟨a, hok⟩ := hrefusal hserved
    cases hok

/-- Where nothing is refused and there is no defect, there is a result. -/
theorem eq_ok {x : Except StorageError α} (h : Detects refusal defect P x) (hserved : ¬refusal)
    (hgood : ¬defect) : ∃ a, x = .ok a ∧ P a := by
  cases x with
  | ok a => exact ⟨a, rfl, h.2⟩
  | error error =>
    have herror : if error.isCorrupted then defect else refusal := h
    split at herror
    · exact absurd herror hgood
    · exact absurd herror hserved

end Detects

theorem Row.isCorrupted_of_decode {row : Row} {error : StorageError}
    (h : row.decode = .error error) : error.isCorrupted = true := by
  rw [Row.decode] at h
  split at h
  · cases h
  · cases h
    rfl

/-- Reading rows fails if one of them cannot be read. -/
theorem Row.mapM_decode_error {rows : List Row}
    (h : ∃ row ∈ rows, ∃ error, row.decode = .error error) :
    ∃ error, rows.mapM Row.decode = .error error ∧ error.isCorrupted = true := by
  induction rows with
  | nil =>
    obtain ⟨row, hrow, -⟩ := h
    cases hrow
  | cons row rows ih =>
    rw [List.mapM_cons]
    cases hdecode : row.decode with
    | error error => exact ⟨error, rfl, isCorrupted_of_decode hdecode⟩
    | ok r =>
      have hrest : ∃ row ∈ rows, ∃ error, row.decode = .error error := by
        obtain ⟨bad, hbad, error, herror⟩ := h
        rcases List.mem_cons.1 hbad with rfl | hbad
        · rw [hdecode] at herror
          cases herror
        · exact ⟨bad, hbad, error, herror⟩
      obtain ⟨error, herror, hcorrupted⟩ := ih hrest
      refine ⟨error, ?_, hcorrupted⟩
      rw [herror]
      rfl

namespace Database

variable {db : Database} {limit : Nat} {keys : List Key}

/-- The record stored under a key, or why it cannot be read. -/
def read? (db : Database) (key : Key) : Option (Except StorageError Record) :=
  db.table.bind (·.read? key)

/-- The key has a row that cannot be read. -/
def Unreadable (db : Database) (key : Key) : Prop := ∃ error, db.read? key = some (.error error)

/-- There is a table, and no statement for so many parameters at a time binds too many. -/
def Serves (db : Database) (limit : Nat) : Prop := db.table.isSome = true ∧ limit ≤ maxParameters

/-- There is no such key where every row can be read. -/
theorem not_unreadable {table : Table} (h : ∀ row ∈ table.rows, row.decode.isOk = true)
    (key : Key) : ¬Unreadable ⟨some table⟩ key := by
  rintro ⟨error, herror⟩
  obtain ⟨row, hrow, hdecode⟩ := Option.map_eq_some_iff.1 herror
  have hok := h row (List.mem_of_find?_eq_some hrow)
  rw [hdecode] at hok
  cases hok

/-! ### The rows that can be read -/

/-- The keys of the rows, if there is a table. -/
def rowKeys (db : Database) : List Key := (db.table.map Table.keys).getD []

/-- The records of the rows that can be read. -/
def readable (db : Database) : Contents :=
  Batch.byKey (db.rowKeys.filterMap fun key => (db.read? key).bind Except.toOption)

theorem key_of_read? {key : Key} {r : Record} (h : db.read? key = some (.ok r)) : r.key = key := by
  obtain ⟨table, -, hread⟩ := Option.bind_eq_some_iff.1 h
  exact Store.key_of_read? hread

theorem mem_rowKeys {key : Key} {result : Except StorageError Record}
    (h : db.read? key = some result) : key ∈ db.rowKeys := by
  obtain ⟨table, htable, hread⟩ := Option.bind_eq_some_iff.1 h
  rw [rowKeys, htable]
  exact Table.mem_keys_iff.2 (by rw [hread]; rfl)

/-- What was read under some keys. -/
def Found (db : Database) (keys : List Key) (records : List Record) : Prop :=
  ∀ r, r ∈ records ↔ r.key ∈ keys ∧ db.read? r.key = some (.ok r)

theorem Found.find?_byKey_iff {records : List Record} (h : db.Found keys records) {key : Key}
    {r : Record} : (Batch.byKey records).find? key = some r ↔
      key ∈ keys ∧ db.read? key = some (.ok r) := by
  have hunique : ∀ r ∈ records, ∀ r' ∈ records, r.key = r'.key → r = r' := by
    intro r hr r' hr' hkey
    have hread := ((h r).1 hr).2
    rw [hkey, ((h r').1 hr').2] at hread
    cases hread
    rfl
  rw [Batch.find?_byKey_iff hunique, h r]
  constructor
  · rintro ⟨hread, rfl⟩
    exact hread
  · rintro ⟨hmem, hread⟩
    have hkey := key_of_read? hread
    exact ⟨⟨hkey ▸ hmem, hkey ▸ hread⟩, hkey⟩

theorem find?_readable {key : Key} {r : Record} :
    db.readable.find? key = some r ↔ db.read? key = some (.ok r) := by
  have hfound : db.Found db.rowKeys (db.rowKeys.filterMap fun key =>
      (db.read? key).bind Except.toOption) := by
    intro r
    rw [List.mem_filterMap]
    constructor
    · rintro ⟨key, hmem, hkey⟩
      obtain ⟨result, hread, hok⟩ := Option.bind_eq_some_iff.1 hkey
      cases result with
      | error error => cases hok
      | ok found =>
        cases hok
        rw [key_of_read? hread]
        exact ⟨hmem, hread⟩
    · rintro ⟨hmem, hread⟩
      refine ⟨r.key, hmem, ?_⟩
      rw [hread]
      rfl
  rw [readable, hfound.find?_byKey_iff]
  exact and_iff_right_of_imp mem_rowKeys

theorem find?_readable_eq (db : Database) (key : Key) :
    db.readable.find? key = (db.read? key).bind Except.toOption := by
  ext r
  rw [find?_readable, Option.bind_eq_some_iff]
  constructor
  · exact fun hread => ⟨.ok r, hread, rfl⟩
  · rintro ⟨result, hread, hok⟩
    cases result with
    | error error => cases hok
    | ok found =>
      cases hok
      exact hread

theorem Found.find?_byKey {records : List Record} (h : db.Found keys records) (key : Key) :
    (Batch.byKey records).find? key = if key ∈ keys then db.readable.find? key else none := by
  ext r
  rw [h.find?_byKey_iff, Option.ite_none_right_eq_some, find?_readable]

theorem keyed_readable (db : Database) : Batch.Keyed db.readable := Batch.keyed_byKey _

/-- What the rows of readable keys hold. -/
theorem read?_eq (h : ∀ key ∈ keys, ¬db.Unreadable key) :
    ∀ key ∈ keys, db.read? key = (db.readable.find? key).map .ok := by
  intro key hkey
  cases hread : db.read? key with
  | none =>
    cases hfind : db.readable.find? key with
    | none => rfl
    | some r =>
      rw [find?_readable, hread] at hfind
      cases hfind
  | some result =>
    cases result with
    | error error => exact absurd ⟨error, hread⟩ (h key hkey)
    | ok r =>
      rw [find?_readable.2 hread]
      rfl

/-! ### Reading some keys -/

theorem selectChunk_detects (hbinds : db.Serves limit → keys.length ≤ maxParameters) :
    Detects (¬db.Serves limit) (∃ key ∈ keys, db.Unreadable key) (db.Found keys)
      (db.selectChunk keys) := by
  obtain ⟨table⟩ := db
  cases table with
  | none => exact fun h => Bool.false_ne_true h.1
  | some table =>
    by_cases hfew : keys.length ≤ maxParameters
    · have hchunk : selectChunk ⟨some table⟩ keys =
          (keys.filterMap table.find?).mapM Row.decode := by
        show (bind keys.length >>= fun _ => _) = _
        rw [bind_ok hfew]
        rfl
      rw [hchunk]
      -- all rows are decoded, so one that cannot be read is met wherever it stands
      by_cases hbad : ∃ key ∈ keys, Unreadable ⟨some table⟩ key
      · have hrow : ∃ row ∈ keys.filterMap table.find?, ∃ error, row.decode = .error error := by
          obtain ⟨key, hkey, error, hread⟩ := hbad
          obtain ⟨row, hfind, herror⟩ := Option.map_eq_some_iff.1 hread
          exact ⟨row, List.mem_filterMap.2 ⟨key, hkey, hfind⟩, error, herror⟩
        obtain ⟨error, herror, hcorrupted⟩ := Row.mapM_decode_error hrow
        rw [herror]
        show if error.isCorrupted then _ else _
        rwa [hcorrupted]
      · have hgood : ∀ key ∈ keys, ¬Unreadable ⟨some table⟩ key := fun key hkey herror =>
          hbad ⟨key, hkey, herror⟩
        rw [Store.mapM_decode_eq (read?_eq hgood)]
        refine ⟨hbad, fun r => ?_⟩
        rw [List.mem_filterMap]
        constructor
        · rintro ⟨key, hkey, hfind⟩
          have hread := find?_readable.1 hfind
          rw [key_of_read? hread]
          exact ⟨hkey, hread⟩
        · rintro ⟨hkey, hread⟩
          exact ⟨r.key, hkey, find?_readable.2 hread⟩
    · -- too many parameters are refused before any row is read
      have hchunk : selectChunk ⟨some table⟩ keys =
          .error (.queryFailed "too many SQL variables") := by
        show (bind keys.length >>= fun _ => _) = _
        rw [bind, if_neg hfew]
        rfl
      rw [hchunk]
      exact fun h => hfew (hbinds h)

/-- **Reading some keys** fails for a row exactly when one of theirs cannot be read. -/
theorem select_detects (db : Database) (limit : Nat) (keys : List Key) :
    Detects (¬db.Serves limit) (∃ key ∈ keys, db.Unreadable key) (db.Found keys)
      (db.select limit keys) := by
  have hchunks : ∀ chunks : List (List Key),
      (db.Serves limit → ∀ chunk ∈ chunks, chunk.length ≤ maxParameters) →
      Detects (¬db.Serves limit) (∃ key ∈ chunks.flatten, db.Unreadable key)
        (fun found => db.Found chunks.flatten found.flatten) (chunks.mapM db.selectChunk) := by
    intro chunks hlength
    induction chunks with
    | nil => exact ⟨fun ⟨_, hkey, _⟩ => List.not_mem_nil hkey, fun r => by simp⟩
    | cons chunk chunks ih =>
      rw [List.mapM_cons, List.flatten_cons]
      simp only [List.mem_append]
      refine (selectChunk_detects fun h => hlength h chunk List.mem_cons_self).bind
        (fun ⟨key, hkey, hbad⟩ => ⟨key, .inl hkey, hbad⟩) fun records hgood hrecords => ?_
      refine (ih fun h c hc => hlength h c (List.mem_cons_of_mem chunk hc)).bind
        (fun ⟨key, hkey, hbad⟩ => ⟨key, .inr hkey, hbad⟩) fun found hrest hfound => ?_
      refine ⟨?_, fun r => ?_⟩
      · rintro ⟨key, hkey | hkey, hbad⟩
        · exact hgood ⟨key, hkey, hbad⟩
        · exact hrest ⟨key, hkey, hbad⟩
      · rw [List.flatten_cons, List.mem_append, hrecords r, hfound r, List.mem_append, or_and_right]
  have hall := hchunks (Batch.chunks limit (Batch.distinct keys)) fun h =>
    Binds.keys (.inl h.2) (Nat.le_refl _)
  simp only [Batch.flatten_chunks, Batch.mem_distinct, Found] at hall
  exact hall.bind id fun found hgood hfound => ⟨hgood, hfound⟩

end Database
end RecordCache
