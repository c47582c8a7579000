import RecordCache.Instant
import RecordCache.Record.Dates
import RecordCache.Word

/-!
# Freshness of fields

The dates in the metadata of a field say until when its value serves. Past that moment the value is
stale, and beyond the staleness that the caller tolerates it is expired.

* `Freshness.FieldRead`: the outcome of reading a field;
* `Freshness.Resolver.expiration?`: when a field expires;
* `Freshness.Resolver.readAt`: reads a field at a moment;
* `Freshness.Resolver.read?`: reads a field at the moment that the headers or the clock tell.
-/

namespace RecordCache
namespace Freshness

/-- The outcome of reading a field; the time past expiration is in seconds. -/
inductive FieldRead
  | fresh (value : Value)
  | stale (value : Value) (staleFor : Nat)
  | expired (staleFor : Nat)
  | missing
  deriving Inhabited

namespace FieldRead

/-- The value that may be used. -/
def value? : FieldRead → Option Value
  | fresh value => some value
  | stale value _ => some value
  | expired _ => none
  | missing => none

/-- Whether the value is within its lifetime. -/
def isFresh : FieldRead → Bool
  | fresh _ => true
  | _ => false

/-- Whether the value is past expiration, tolerated or not. -/
def isStale : FieldRead → Bool
  | stale _ _ => true
  | expired _ => true
  | _ => false

/-- Whether no value may be used. -/
def isMiss (read : FieldRead) : Bool := read.value?.isNone

/-- The seconds past expiration. -/
def staleFor : FieldRead → Nat
  | stale _ seconds => seconds
  | expired seconds => seconds
  | _ => 0

end FieldRead

/-- The difference, or the nearest integer of 64 bits. -/
def clampedSub (a b : Int64) : Int64 := Int64.ofIntClamp (a.toInt - b.toInt)

/-- The sum, or the nearest integer of 64 bits. -/
def clampedAdd (a b : Int64) : Int64 := Int64.ofIntClamp (a.toInt + b.toInt)

/-- How fields without a date of expiration expire: so long after they were received, if at all. -/
structure Resolver where
  maxAge : Option Duration

namespace Resolver

/-- The lifetime in seconds, if it is set and fits 64 bits. -/
def maxAgeSeconds? (resolver : Resolver) : Option Int64 :=
  resolver.maxAge.bind fun age =>
    if age.seconds < Word.count63 then some (Int64.ofInt age.seconds) else none

/-- When a field expires, in seconds since the epoch. -/
def expiration? (resolver : Resolver) (r : Record) (field : String) : Option Int64 :=
  let metadata := r.metadataOf field
  match metadata.int64? FieldMetadata.expirationDate with
  | some date => some date
  | none =>
    match resolver.maxAgeSeconds?, metadata.int64? FieldMetadata.receivedDate with
    | some age, some received => some (clampedAdd received age)
    | _, _ => none

/-- Whether a field has a value that expires at some time. -/
def expires (resolver : Resolver) (r : Record) (field : String) : Bool :=
  r.fields.contains field && (resolver.expiration? r field).isSome

/-- Reads a field at a moment, in seconds since the epoch. -/
def readAt (resolver : Resolver) (now : Int64) (headers : Headers) (r : Record)
    (field : String) : FieldRead :=
  match r.fields.find? field with
  | none => .missing
  | some value =>
    match resolver.expiration? r field with
    | none => .fresh value
    | some expiration =>
      let staleFor := clampedSub now expiration
      if staleFor < 0 then .fresh value
      else if staleFor ≥ (headers.int64? Headers.maxStale).getD 0 then
        .expired staleFor.toInt.toNat
      else .stale value staleFor.toInt.toNat

/-- Reads a field. The date header counts as now, else the clock does; none when the value expires
and neither tells the time. -/
def read? (resolver : Resolver) (clock : Instant) (headers : Headers) (r : Record)
    (field : String) : Option FieldRead :=
  match headers.int64? Headers.date with
  | some now => some (resolver.readAt now headers r field)
  | none =>
    if resolver.expires r field && !clock.hasDate then none
    else some (resolver.readAt clock.seconds headers r field)

end Resolver
end Freshness
end RecordCache
