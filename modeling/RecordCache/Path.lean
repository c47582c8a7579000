/-!
# Paths

A path leads from a folder to a file by the names between its slashes. An empty name and a point
stay in the folder reached so far, two points go up to the folder around it. A path that begins with
a slash starts in the outermost folder, any other one in the base folder.

* `Path.steps`: the steps of a path;
* `Place`: where steps lead to when names are taken as they stand, whatever there is on the way;
* `Path.place`: the place of a path, which all spellings of a path share.
-/

namespace RecordCache

/-- A step along a path. -/
inductive Step
  | into (name : List Char)
  | up
  deriving DecidableEq, Repr

/-- A folder from which names are counted. -/
inductive Anchor
  /-- The folder so many levels above the base folder. -/
  | above (levels : Nat)
  | outermost
  deriving DecidableEq, Repr

/-- The folder around an anchor; there is none around the outermost one. -/
def Anchor.up : Anchor → Anchor
  | above levels => above (levels + 1)
  | outermost => outermost

/-- A place among folders: an anchor and the names that lead on from it, the last one first. -/
structure Place where
  anchor : Anchor
  names : List (List Char)
  deriving DecidableEq

namespace Place

/-- The place of a name in a folder. -/
def into (place : Place) (name : List Char) : Place := { place with names := name :: place.names }

/-- The folder around a place. -/
def up (place : Place) : Place :=
  match place.names with
  | [] => { place with anchor := place.anchor.up }
  | _ :: outer => { place with names := outer }

/-- The place that a step leads to. -/
def after (place : Place) : Step → Place
  | .into name => place.into name
  | .up => place.up

/-- The names from the anchor on, with slashes between them. -/
def spellNames (place : Place) : List Char := List.intercalate ['/'] place.names.reverse

/-- The shortest path to a place. -/
def spell (place : Place) : String :=
  match place.anchor with
  | .above levels =>
    String.ofList ((List.replicate levels ['.', '.', '/']).flatten ++ place.spellNames)
  | .outermost => String.ofList ('/' :: place.spellNames)

/-- The place whose name is followed by a suffix. -/
def withSuffix (place : Place) (suffix : List Char) : Place :=
  match place.names with
  | [] => place
  | name :: outer => { place with names := (name ++ suffix) :: outer }

/-- The bytes that a name may have. -/
def maxNameBytes : Nat := 255

/-- The bytes that the names on the way to a place may have, slashes included. -/
def maxPathBytes : Nat := 480

/-- Whether the name of a place, and the way to it, are short enough. -/
def fits (place : Place) : Bool :=
  (String.ofList (place.names.headD [])).utf8ByteSize ≤ maxNameBytes &&
    (String.ofList place.spellNames).utf8ByteSize ≤ maxPathBytes

end Place

namespace Path

/-- The names between the slashes of a path. -/
def names : List Char → List (List Char)
  | [] => [[]]
  | c :: path =>
    match names path with
    | name :: rest => if c = '/' then [] :: name :: rest else (c :: name) :: rest
    | [] => [[c]]

/-- The step that a name stands for; some names stay where they are. -/
def step? (name : List Char) : Option Step :=
  if name = [] ∨ name = ['.'] then none
  else if name = ['.', '.'] then some .up
  else some (.into name)

/-- The steps of a path. -/
def steps (path : String) : List Step := (names path.toList).filterMap step?

/-- The folder that a path starts in. -/
def start (path : String) : Place :=
  if path.toList.head? = some '/' then ⟨.outermost, []⟩ else ⟨.above 0, []⟩

/-- The place of a path. -/
def place (path : String) : Place := (steps path).foldl Place.after (start path)

/-- Whether the end of a path names what it leads to, as a slash or a point at the end does not. -/
def endsInName (path : String) : Bool := ((names path.toList).getLast?.bind step?).isSome

/-- Whether a path can be used at all: no null character can be in one. -/
def isUsable (path : String) : Bool := !path.toList.contains '\x00'

end Path
end RecordCache
