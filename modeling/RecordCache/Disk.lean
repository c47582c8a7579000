import RecordCache.Database
import RecordCache.Path

/-!
# Files

The files in which tables are kept, and the folders around them. The folders on the way to a file
are made when it is opened, one after the other, which fails where one of them is a file. A file
that has been opened as a table stays one; a file with any other text cannot be opened, unless it
has one byte at most.

While a table is written, a journal and a log lie beside its file. Their names are that of the file
and a suffix, so that they have to be free: what files lie there is lost, and a folder that lies
there keeps the table from being opened.

* `Disk.ofTexts`: files that hold texts;
* `Disk.open?` finds or makes the table of a file;
* `Disk.save` puts a table back, `Disk.table?` looks at it.
-/

namespace RecordCache

/-- What lies at a place. -/
inductive Entry
  | folder
  | text (s : String)
  | database (db : Database)
  deriving DecidableEq, Inhabited

namespace Entry

/-- Whether something is a folder. -/
def isFolder : Entry → Bool
  | folder => true
  | _ => false

/-- Whether a text is no longer than the single byte that counts as an empty file. -/
def isVacant (text : String) : Bool := text.utf8ByteSize ≤ 1

/-- The table of a file that can be opened. A file that is new or empty has none yet. -/
def open? : Option Entry → Option Database
  | none => some ⟨none⟩
  | some folder => none
  | some (text s) => if isVacant s then some ⟨none⟩ else none
  | some (database db) => some db

end Entry

/-- What lies where, by the shortest path to a place. -/
structure Disk where
  entries : SortedMap String Entry
  deriving Inhabited

namespace Disk

/-- What lies at a place; an anchor is a folder. -/
def entry? (disk : Disk) (place : Place) : Option Entry :=
  if place.names = [] then some .folder else disk.entries.find? place.spell

/-- Whether a folder lies at the place. -/
def isFolder (disk : Disk) (place : Place) : Bool := (disk.entry? place).any Entry.isFolder

/-- Whether a file lies at the place. -/
def isFile (disk : Disk) (place : Place) : Bool :=
  (disk.entry? place).any fun entry => !entry.isFolder

/-- Puts something at a place. -/
def put (disk : Disk) (place : Place) (entry : Entry) : Disk :=
  ⟨disk.entries.insert place.spell entry⟩

/-- Goes on to a folder, which is made where there is nothing. -/
def enter? (disk : Disk) (place : Place) : Step → Option (Disk × Place)
  | .up => some (disk, place.up)
  | .into name =>
    let place := place.into name
    if !place.fits then none
    else
      match disk.entry? place with
      | some .folder => some (disk, place)
      | some _ => none
      | none => some (disk.put place .folder, place)

/-- Goes along a path up to its last step, which names a file: its place, and the files with the
folders that were made on the way. -/
def approach? (disk : Disk) (path : String) : Option (Disk × Place) :=
  match (Path.steps path).getLast? with
  | some (.into name) => do
    guard (Path.isUsable path)
    let (disk, folder) ← (Path.steps path).dropLast.foldlM
      (fun (reached : Disk × Place) step => reached.1.enter? reached.2 step)
      (disk, Path.start path)
    guard (folder.into name).fits
    return (disk, folder.into name)
  | _ => none

/-- The suffix of a table's journal. -/
def journalSuffix : List Char := ['-', 'j', 'o', 'u', 'r', 'n', 'a', 'l']

/-- The suffix of a table's log. -/
def logSuffix : List Char := ['-', 'w', 'a', 'l']

/-- The places of the journal and the log of a file. -/
def companions (place : Place) : List Place :=
  [place.withSuffix journalSuffix, place.withSuffix logSuffix]

/-- The files without those that lie in the way of a file's journal and log. -/
def clearCompanions (disk : Disk) (place : Place) : Disk :=
  (companions place).foldl (fun disk companion => ⟨disk.entries.erase companion.spell⟩) disk

/-- The table of a file that can be opened, and the files once it is. -/
def open? (disk : Disk) (path : String) : Option (Disk × Database) := do
  let (disk, place) ← disk.approach? path
  guard ((companions place).all fun companion => companion.fits && !disk.isFolder companion)
  let db ← Entry.open? (disk.entry? place)
  return ((disk.clearCompanions place).put place (.database db), db)

/-- The files with a text written to a path, if it can be written there. -/
def write (disk : Disk) (path : String) (text : String) : Disk :=
  match disk.approach? path with
  | some (reached, place) =>
    if !Path.endsInName path || reached.isFolder place then reached
    else reached.put place (.text text)
  | none => disk

/-- The files with the given paths and texts, written one after the other. -/
def ofTexts (texts : List (String × String)) : Disk :=
  texts.foldl (fun disk file => disk.write file.1 file.2) ⟨∅⟩

/-- Puts a table back into the file of a path. -/
def save (disk : Disk) (path : String) (db : Database) : Disk :=
  disk.put (Path.place path) (.database db)

/-- Goes on by a step without making a folder: a name leads nowhere behind a file. -/
def follow? (disk : Disk) (place : Place) : Step → Option Place
  | .up => some place.up
  | .into name =>
    if disk.isFile place || !(place.into name).fits then none else some (place.into name)

/-- The place of a path that can be followed. -/
def locate? (disk : Disk) (path : String) : Option Place := do
  guard (Path.isUsable path)
  (Path.steps path).foldlM disk.follow? (Path.start path)

/-- The table of a file, if it has one. -/
def table? (disk : Disk) (path : String) : Option Table := do
  match disk.entry? (← disk.locate? path) with
  | some (.database db) => db.table
  | _ => none

end Disk
end RecordCache
