import RecordCache.Word

/-!
# Time

Moments count nanoseconds since the epoch, lengths of time nanoseconds.

* `Duration` with its whole seconds and the rest;
* `Instant` with whole seconds and milliseconds, rounded down, and the time since an earlier one;
* `Instant.hasDate`: whether the calendar reaches a moment.
-/

namespace RecordCache

/-- A length of time in nanoseconds. -/
structure Duration where
  nanoseconds : Nat
  deriving DecidableEq, Inhabited, Repr

namespace Duration

/-- The nanoseconds of a second. -/
def second : Nat := 1000000000

/-- The whole seconds. -/
def seconds (d : Duration) : Nat := d.nanoseconds / second

/-- The nanoseconds beyond the whole seconds. -/
def subsecond (d : Duration) : Nat := d.nanoseconds % second

/-- So many seconds and nanoseconds; none when the seconds, with those that the nanoseconds carry,
do not fit 64 bits. -/
def ofParts? (seconds nanoseconds : Nat) : Option Duration :=
  let duration : Duration := ⟨seconds * second + nanoseconds⟩
  if duration.seconds < Word.count64 then some duration else none

end Duration

/-- A moment in nanoseconds since the epoch. -/
structure Instant where
  nanoseconds : Int
  deriving DecidableEq, Inhabited, Repr

namespace Instant

/-- The moment so many milliseconds after the epoch. -/
def ofMilliseconds (n : Int) : Instant := ⟨n * 1000000⟩

/-- The whole milliseconds since the epoch, rounded down. -/
def milliseconds (t : Instant) : Int64 := Int64.ofIntClamp (t.nanoseconds / 1000000)

/-- The whole seconds since the epoch, rounded down. -/
def seconds (t : Instant) : Int64 := Int64.ofIntClamp (t.nanoseconds / 1000000000)

/-- The last second of the calendar, at the end of the year 262142. -/
def lastSecond : Int := 8210266876799

/-- Whether the moment has a date: the calendar begins at the epoch. -/
def hasDate (t : Instant) : Bool :=
  0 ≤ t.nanoseconds && t.nanoseconds / 1000000000 ≤ lastSecond

/-- The moment so many nanoseconds later, or earlier if they are negative. -/
def advance (t : Instant) (nanoseconds : Int) : Instant := ⟨t.nanoseconds + nanoseconds⟩

/-- The time since an earlier moment, zero since a later one. -/
def since (t earlier : Instant) : Duration := ⟨(t.nanoseconds - earlier.nanoseconds).toNat⟩

end Instant
end RecordCache
