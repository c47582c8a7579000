import RecordCache.Proofs.Database.Chunks
import RecordCache.Store

/-!
# Transactions, statement by statement

A tier works on a handle to the database, and a statement writes as soon as it is run: what the
statements before it wrote is not undone when it fails. It is the end of a transaction that makes
these writes good or drops them all. Outside of a transaction a statement counts at once.

* `Handle` is what is committed and what an open transaction has made of it;
* `Procedure` is a sequence of statements, which may fail on its way and keeps what it has written;
* `Procedure.transaction` commits the writes of a procedure that ends, and drops those of one that
  fails;
* `Procedure.select`, `upsert`, `deleteChunks`, `reachable` run one statement for each chunk;
* `Procedure.Realizes` says that a procedure does in a transaction what a function of the tables
  says, however many statements it takes, and `Procedure.Settles` that it does so outside of one, or
  does nothing; `Realizes.settles_transaction` is the step from the one to the other.
-/

namespace RecordCache

universe u

/-- The tables that are committed, and those of the open transaction. -/
structure Handle where
  committed : Database
  pending : Option Database
  deriving DecidableEq

namespace Handle

/-- The tables that a statement sees. -/
def tables (handle : Handle) : Database := handle.pending.getD handle.committed

/-- Puts down what a statement has written. -/
def write (db : Database) (handle : Handle) : Handle :=
  if handle.pending.isSome then { handle with pending := some db }
  else { handle with committed := db }

/-- Opens a transaction. -/
def begin (handle : Handle) : Handle := { handle with pending := some handle.committed }

/-- Ends a transaction: its tables are committed. -/
def commit (handle : Handle) : Handle := ⟨handle.tables, none⟩

/-- Drops a transaction with all that it has written. -/
def rollback (handle : Handle) : Handle := ⟨handle.committed, none⟩

end Handle

/-- Statements run on a handle. A failure ends them and leaves the handle as it is then. -/
abbrev Procedure := ExceptT StorageError (StateM Handle)

namespace Procedure

variable {α β : Type}

/-- What a procedure gives, and the handle that it leaves. -/
def exec (p : Procedure α) (handle : Handle) : Except StorageError α × Handle := p.run.run handle

/-- Runs a statement, which writes all of its rows or none. -/
def statement (f : Database → Except StorageError (α × Database)) : Procedure α := fun handle =>
  match f handle.tables with
  | .ok (a, db) => (.ok a, handle.write db)
  | .error error => (.error error, handle)

/-- Runs a statement that only reads. -/
def query (f : Database → Except StorageError α) : Procedure α :=
  statement fun db => (·, db) <$> f db

/-- Runs a procedure in a transaction. -/
def transaction (body : Procedure α) : Procedure α := fun handle =>
  match body.exec handle.begin with
  | (.ok a, handle) => (.ok a, handle.commit)
  | (.error error, handle) => (.error error, handle.rollback)

/-! ### Statements for chunks -/

/-- Reads the records of some keys, one statement for each chunk. -/
def select (limit : Nat) (keys : List Key) : Procedure (List Record) := do
  let found ← (Batch.chunks limit (Batch.distinct keys)).mapM fun chunk =>
    query fun db => db.selectChunk chunk
  return found.flatten

/-- Writes rows, one statement for each chunk. -/
def upsertChunks (mode : WriteMode) : List (List Row) → Procedure Unit
  | [] => pure ()
  | chunk :: rest => do
    statement fun db => ((), ·) <$> db.upsertChunk mode chunk
    upsertChunks mode rest

/-- Writes rows in order. -/
def upsert (mode : WriteMode) (limit : Nat) (rows : List Row) : Procedure Unit :=
  upsertChunks mode (Batch.chunks (limit / Database.columns mode) rows)

/-- Removes rows, one statement for each chunk, and counts them. -/
def deleteChunks {γ : Type u} (remove : List γ → Table → Nat × Table) :
    List (List γ) → Procedure Nat
  | [] => pure 0
  | chunk :: rest => do
    let removed ← statement fun db => do
      Database.bind chunk.length
      db.delete (remove chunk)
    let more ← deleteChunks remove rest
    return removed + more

/-- Removes the rows with one of the keys. -/
def deleteKeys (limit : Nat) (keys : List Key) : Procedure Nat :=
  deleteChunks Table.deleteKeys (Batch.chunks limit (Batch.distinct keys))

/-- Follows references, one generation after the other. -/
def reach (limit : Nat) : Nat → SortedSet Key → List Key → Procedure (SortedSet Key)
  | 0, visited, _ => pure visited
  | fuel + 1, visited, frontier => do
    if frontier.isEmpty then return visited
    let records ← select limit frontier
    let (visited, next) := Database.visitReferences visited records
    reach limit fuel visited next

/-- The keys given and all reachable from them. -/
def reachable (limit : Nat) (keys : List Key) : Procedure (List Key) := do
  let visited := SortedSet.ofList keys
  let rows ← query fun db => .ok <| match db.table with
    | some table => table.count
    | none => 0
  let visited ← reach limit (rows + 2) visited visited.toList
  return visited.toList

/-! ### What procedures do -/

@[simp] theorem exec_pure (a : α) (handle : Handle) :
    (pure a : Procedure α).exec handle = (.ok a, handle) := rfl

theorem exec_bind (p : Procedure α) (q : α → Procedure β) (handle : Handle) :
    (p >>= q).exec handle =
      match p.exec handle with
      | (.ok a, handle) => (q a).exec handle
      | (.error error, handle) => (.error error, handle) := by
  have hrun : (p >>= q).exec handle =
      match p.exec handle with
      | (result, handle) => (ExceptT.bindCont q result).run handle := rfl
  rw [hrun]
  rcases p.exec handle with ⟨_ | _, handle⟩ <;> rfl

/-- In a transaction the procedure does to the tables what the function says. When that fails, the
transaction is still open, with whatever was written before. -/
structure Realizes (p : Procedure α) (f : Database → Except StorageError (α × Database)) :
    Prop where
  ok : ∀ {committed db db' : Database} {a : α}, f db = .ok (a, db') →
    p.exec ⟨committed, some db⟩ = (.ok a, ⟨committed, some db'⟩)
  error : ∀ (committed : Database) {db : Database} {error : StorageError}, f db = .error error →
    ∃ left, p.exec ⟨committed, some db⟩ = (.error error, ⟨committed, some left⟩)

/-- Outside of transactions the procedure does to the tables what the function says, or nothing when
that fails, and leaves no transaction open. -/
def Settles (p : Procedure α) (f : Database → Except StorageError (α × Database)) : Prop :=
  ∀ db : Database, p.exec ⟨db, none⟩ =
    match f db with
    | .ok (a, db') => (.ok a, ⟨db', none⟩)
    | .error error => (.error error, ⟨db, none⟩)

theorem settles_pure (a : α) : Settles (pure a) fun db => .ok (a, db) := fun _ => rfl

theorem settles_statement (f : Database → Except StorageError (α × Database)) :
    Settles (statement f) f := by
  intro db
  have hexec : (statement f).exec ⟨db, none⟩ =
      match f db with
      | .ok (a, db') => (.ok a, ⟨db', none⟩)
      | .error error => (.error error, ⟨db, none⟩) := rfl
  exact hexec

theorem Settles.map {p : Procedure α} {f : Database → Except StorageError (α × Database)}
    (h : Settles p f) (g : α → β) :
    Settles (p >>= fun a => pure (g a))
      fun db => f db >>= fun result => .ok (g result.1, result.2) := by
  intro db
  rw [exec_bind, h db]
  dsimp only
  cases f db <;> rfl

/-- In a transaction the procedure reads from the tables what the function says. -/
def Reads (p : Procedure α) (f : Database → Except StorageError α) : Prop :=
  Realizes p fun db => (·, db) <$> f db

namespace Realizes

variable {p : Procedure α} {f : Database → Except StorageError (α × Database)}

theorem congr {g : Database → Except StorageError (α × Database)} (h : Realizes p f)
    (heq : ∀ db, g db = f db) : Realizes p g :=
  funext heq ▸ h

theorem pure (a : α) : Realizes (Pure.pure a) fun db => .ok (a, db) where
  ok h := by
    cases h
    rfl
  error _ _ _ h := by cases h

theorem statement (f : Database → Except StorageError (α × Database)) :
    Realizes (Procedure.statement f) f := by
  have hexec (committed db : Database) :
      (Procedure.statement f).exec ⟨committed, some db⟩ =
        match f db with
        | .ok (a, db') => (.ok a, ⟨committed, some db'⟩)
        | .error error => (.error error, ⟨committed, some db⟩) := rfl
  constructor
  · intro committed db db' a h
    rw [hexec, h]
  · intro committed db error h
    refine ⟨db, ?_⟩
    rw [hexec, h]

/-- One after the other. -/
theorem bind {q : α → Procedure β} {g : α → Database → Except StorageError (β × Database)}
    (hp : Realizes p f) (hq : ∀ a, Realizes (q a) (g a)) :
    Realizes (p >>= q) fun db => f db >>= fun result => g result.1 result.2 := by
  constructor
  · intro committed db db'' b h
    obtain ⟨result, hf, h⟩ := ok_of_bind h
    rw [exec_bind, hp.ok hf]
    exact (hq result.1).ok h
  · intro committed db error h
    cases hf : f db with
    | error error' =>
      rw [hf] at h
      cases h
      -- the second is not run, and the writes of the first are left as they are
      obtain ⟨left, hleft⟩ := hp.error committed hf
      refine ⟨left, ?_⟩
      rw [exec_bind, hleft]
    | ok result =>
      rw [hf] at h
      rw [exec_bind, hp.ok hf]
      exact (hq result.1).error committed h

/-- **Transactions.** A transaction does what the function says, or nothing at all. -/
theorem settles_transaction (h : Realizes p f) : Settles (transaction p) f := by
  intro db
  have hexec : (transaction p).exec ⟨db, none⟩ =
      match p.exec ⟨db, some db⟩ with
      | (.ok a, handle) => (.ok a, handle.commit)
      | (.error error, handle) => (.error error, handle.rollback) := rfl
  rw [hexec]
  cases hf : f db with
  | ok result =>
    rw [h.ok hf]
    rfl
  | error error =>
    -- whatever was written is dropped with the transaction
    obtain ⟨left, hleft⟩ := h.error db hf
    rw [hleft]
    rfl

end Realizes

namespace Reads

variable {p : Procedure α} {f : Database → Except StorageError α}

theorem pure (a : α) : Reads (Pure.pure a) fun _ => .ok a := Realizes.pure a

theorem query (f : Database → Except StorageError α) : Reads (Procedure.query f) f :=
  Realizes.statement _

/-- Something is done with what was read. -/
theorem bind {q : α → Procedure β} {g : α → Database → Except StorageError (β × Database)}
    (hp : Reads p f) (hq : ∀ a, Realizes (q a) (g a)) :
    Realizes (p >>= q) fun db => f db >>= fun a => g a db := by
  refine (Realizes.bind hp hq).congr fun db => ?_
  cases f db <;> rfl

/-- Something more is read. -/
theorem andThen {q : α → Procedure β} {g : α → Database → Except StorageError β}
    (hp : Reads p f) (hq : ∀ a, Reads (q a) (g a)) :
    Reads (p >>= q) fun db => f db >>= fun a => g a db := by
  refine (hp.bind hq).congr fun db => ?_
  dsimp only
  cases f db <;> rfl

end Reads

/-! ### Statements for chunks do what those for a batch do -/

theorem reads_select (limit : Nat) (keys : List Key) :
    Reads (select limit keys) fun db => db.select limit keys := by
  have hchunks : ∀ chunks : List (List Key),
      Reads (chunks.mapM fun chunk => query fun db => db.selectChunk chunk)
        fun db => chunks.mapM db.selectChunk := by
    intro chunks
    induction chunks with
    | nil => exact .pure []
    | cons chunk chunks ih =>
      simp only [List.mapM_cons]
      exact (Reads.query _).andThen fun _ => ih.andThen fun _ => .pure _
  exact (hchunks _).andThen fun _ => .pure _

theorem realizes_upsert (mode : WriteMode) (limit : Nat) (rows : List Row) :
    Realizes (upsert mode limit rows) fun db => ((), ·) <$> db.upsert mode limit rows := by
  rw [upsert]
  unfold Database.upsert
  induction Batch.chunks (limit / Database.columns mode) rows with
  | nil => exact .pure ()
  | cons chunk chunks ih =>
    refine ((Realizes.statement _).bind fun _ => ih).congr fun db => ?_
    rw [List.foldlM_cons]
    cases db.upsertChunk mode chunk <;> rfl

theorem realizes_deleteChunks {γ : Type u} (remove : List γ → Table → Nat × Table)
    (chunks : List (List γ)) :
    Realizes (deleteChunks remove chunks) (Database.deleteChunks remove chunks) := by
  induction chunks with
  | nil => exact .pure 0
  | cons chunk chunks ih =>
    refine ((Realizes.statement _).bind fun removed => ih.bind fun more => .pure _).congr
      fun db => ?_
    rw [Database.deleteChunks]
    cases Database.bind chunk.length with
    | error error => rfl
    | ok bound => rfl

theorem realizes_deleteKeys (limit : Nat) (keys : List Key) :
    Realizes (deleteKeys limit keys) (Database.deleteKeys limit keys) :=
  realizes_deleteChunks _ _

theorem reads_reach (limit fuel : Nat) (visited : SortedSet Key) (frontier : List Key) :
    Reads (reach limit fuel visited frontier) fun db => db.reach limit fuel visited frontier := by
  induction fuel generalizing visited frontier with
  | zero => exact .pure visited
  | succ fuel ih =>
    unfold reach Database.reach
    by_cases hempty : frontier.isEmpty = true
    · simp only [hempty, if_true]
      exact .pure visited
    · simp only [hempty]
      exact (reads_select limit frontier).andThen fun records => ih _ _

theorem reads_reachable (limit : Nat) (keys : List Key) :
    Reads (reachable limit keys) fun db => db.reachable limit keys := by
  have hsearch (rows : Nat) := (reads_reach limit (rows + 2) (SortedSet.ofList keys)
    (SortedSet.ofList keys).toList).andThen fun visited => .pure visited.toList
  exact (Reads.query _).andThen hsearch

end Procedure
end RecordCache
