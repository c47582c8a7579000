import RecordCache.SortedMap
import RecordCache.Text.Blank
import RecordCache.Text.Decimal

/-!
# Headers

Every call may carry headers, named texts that guide it. A flag need only be present; dates are
seconds since the epoch.

* the names of the headers that the cache knows;
* `Headers.has`, `value?`, `int64?` ask for one;
* `Headers.add`, `flag`, `addInt64`, `overlay` put headers together.
-/

namespace RecordCache

/-- Named texts. -/
structure Headers where
  entries : SortedMap String String
  deriving DecidableEq, Inhabited

namespace Headers

/-- Removes a record that has been read from the tier that served it. -/
def evictAfterRead : String := "evict-after-read"

/-- Stores nothing. -/
def doNotStore : String := "do-not-store"

/-- Keeps the persistent tier out of a read or a write. -/
def memoryCacheOnly : String := "memory-cache-only"

/-- When the data were received. -/
def receivedDate : String := "received-date"

/-- When the data expire. -/
def expirationDate : String := "expiration-date"

/-- Lets errors take the place of cached values. -/
def errorsReplaceCachedValues : String := "errors-replace-cached-values"

/-- For how many seconds past expiration data still serve. -/
def maxStale : String := "max-stale"

/-- The time that counts as now. -/
def date : String := "date"

/-- No headers. -/
def none : Headers := ⟨∅⟩

instance : EmptyCollection Headers := ⟨none⟩

/-- Whether a header is present. -/
def has (headers : Headers) (name : String) : Bool := headers.entries.contains name

/-- The text of a header. -/
def value? (headers : Headers) (name : String) : Option String := headers.entries.find? name

/-- The integer that the text of a header spells, white space around it aside. -/
def int64? (headers : Headers) (name : String) : Option Int64 :=
  (headers.value? name).bind fun text => Text.int64? (Text.trim text.toList)

/-- Whether there are no headers. -/
def isEmpty (headers : Headers) : Bool := headers.entries.isEmpty

/-- The headers with one more, which replaces one of its name. -/
def add (headers : Headers) (name value : String) : Headers :=
  ⟨headers.entries.insert name value⟩

/-- The headers with a flag. -/
def flag (headers : Headers) (name : String) : Headers := headers.add name "true"

/-- The headers with an integer. -/
def addInt64 (headers : Headers) (name : String) (n : Int64) : Headers :=
  headers.add name (String.ofList (Text.decimalInt n.toInt))

/-- Both headers together, those of `top` winning. -/
def overlay (headers top : Headers) : Headers := ⟨headers.entries.overlay top.entries⟩

end Headers
end RecordCache
