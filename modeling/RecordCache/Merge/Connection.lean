import RecordCache.Merge

/-!
# Pages of a connection

A connection is an object with a list of edges, of which a field holds one stretch; the metadata
have the cursors of its first and last edge. A page that was requested after the last cursor is
appended, one before the first cursor is prepended, and any other page replaces the stretch.
-/

namespace RecordCache
namespace Connection

/-- The metadata entry with the cursor of the first edge. -/
def startCursor : String := "startCursor"

/-- The metadata entry with the cursor of the last edge. -/
def endCursor : String := "endCursor"

/-- The metadata entry with the cursor that a page was requested before. -/
def before : String := "before"

/-- The metadata entry with the cursor that a page was requested after. -/
def after : String := "after"

/-- The member with the list of edges. -/
def edges : String := "edges"

/-- The member that describes the page. -/
def pageInfo : String := "pageInfo"

/-- The entries of the page description that speak of its start. -/
def startEntries : List String := ["startCursor", "hasPreviousPage"]

/-- The entries of the page description that speak of its end. -/
def endEntries : List String := ["endCursor", "hasNextPage"]

/-- The members of an object. -/
abbrev Members := List (String × Value)

/-- The edges of a connection, none when it has no list of them. -/
def edgesOf (connection : Members) : List Value :=
  ((Entries.find? edges connection).bind Value.list?).getD []

/-- The page description of a connection. -/
def pageInfo? (connection : Members) : Option Members :=
  (Entries.find? pageInfo connection).bind Value.object?

/-- Copies the named entries of the incoming page description, if there is one. -/
def mergePageInfo (existing incoming : Members) (names : List String) : Members :=
  match pageInfo? incoming with
  | none => existing
  | some newInfo =>
    let info := names.foldl (fun info name =>
      match Entries.find? name newInfo with
      | some value => Entries.insert name value info
      | none => info) ((pageInfo? existing).getD [])
    Entries.insert pageInfo (.object info) existing

/-- Merges a page into a stretch of a connection. -/
def merge : FieldMerger := fun existing incoming =>
  let requestedBefore := incoming.metadata.string? before
  let requestedAfter := incoming.metadata.string? after
  if requestedBefore.isNone && requestedAfter.isNone then incoming
  else
    match existing.metadata.string? startCursor, existing.metadata.string? endCursor with
    | some first, some last =>
      match incoming.metadata.string? startCursor, incoming.metadata.string? endCursor with
      | some newFirst, some newLast =>
        match existing.value, incoming.value with
        | .object stretch, .object page =>
          let joined : Members × List Value × String × String :=
            -- A page that goes on where the stretch ends wins over one that ends where it starts.
            if requestedAfter = some last then
              (mergePageInfo stretch page endEntries, edgesOf stretch ++ edgesOf page,
                first, newLast)
            else if requestedBefore = some first then
              (mergePageInfo stretch page startEntries, edgesOf page ++ edgesOf stretch,
                newFirst, last)
            else (page, edgesOf page, newFirst, newLast)
          let metadata := ((existing.metadata.overlay incoming.metadata).erase before).erase after
          ⟨.object (Entries.insert edges (.list joined.2.1) joined.1),
            (metadata.insert startCursor (.string joined.2.2.1)).insert endCursor
              (.string joined.2.2.2)⟩
        | _, _ => incoming
      | _, _ => existing
    | _, _ => incoming

end Connection

/-- Merges pages of connections field by field. -/
def Merger.connection : Merger := Merger.byField Connection.merge

end RecordCache
