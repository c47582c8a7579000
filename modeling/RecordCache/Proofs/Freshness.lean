import RecordCache.Freshness

/-!
# Freshness in exact integers

Moments and tolerances are integers of 64 bits, and their differences are clamped to that range.
What is clamped never decides anything: a field is fresh, stale or expired as exact integers say,
and only the time past expiration is told no longer than 64 bits allow. So a field never gets
fresher with time, and no value that serves is lost to a larger tolerance.

* `Resolver.exactExpiration?`, `Headers.tolerance`: what the outcome depends on, as exact integers;
* `FieldRead.Exact` says which outcome these integers give;
* `Resolver.readAt_exact`: reading gives it, from one lemma for each side of the two bounds;
* `FieldRead.Exact.agesTo`, `FieldRead.Exact.usable`: what time and tolerance change;
* `Resolver.read_exact`: reading a field at the moment that the headers tell.
-/

namespace RecordCache

theorem toInt_ofIntClamp (n : Int) :
    (Int64.ofIntClamp n).toInt = max Int64.minValue.toInt (min Int64.maxValue.toInt n) := by
  have hrange := Int64.minValue_le_toInt Int64.maxValue
  unfold Int64.ofIntClamp
  split
  · rename_i hlow
    split
    · rw [Int64.toInt_ofIntLE]
      omega
    · omega
  · omega

/-- For how many seconds past expiration the headers let a value serve. -/
def Headers.tolerance (headers : Headers) : Int := ((headers.int64? maxStale).getD 0).toInt

namespace Freshness

theorem toInt_clampedSub (a b : Int64) : (clampedSub a b).toInt =
    max Int64.minValue.toInt (min Int64.maxValue.toInt (a.toInt - b.toInt)) :=
  toInt_ofIntClamp _

theorem toInt_clampedAdd (a b : Int64) : (clampedAdd a b).toInt =
    max Int64.minValue.toInt (min Int64.maxValue.toInt (a.toInt + b.toInt)) :=
  toInt_ofIntClamp _

/-- The outcome that exact integers give for a field with this value and this moment of expiration,
where there is one, at a moment and with a tolerance. -/
structure FieldRead.Exact (value? : Option Value) (expiration? : Option Int) (now tolerance : Int)
    (read : FieldRead) : Prop where
  missing : read = .missing ↔ value? = none
  fresh : ∀ value, read = .fresh value ↔
    value? = some value ∧ ∀ expiration, expiration? = some expiration → now < expiration
  stale : ∀ value (seconds : Nat), read = .stale value seconds ↔
    value? = some value ∧ ∃ expiration, expiration? = some expiration ∧ expiration ≤ now ∧
      now - expiration < tolerance ∧ (seconds : Int) = min (now - expiration) Int64.maxValue.toInt
  expired : ∀ seconds : Nat, read = .expired seconds ↔
    (∃ value, value? = some value) ∧ ∃ expiration, expiration? = some expiration ∧
      expiration ≤ now ∧ tolerance ≤ now - expiration ∧
      (seconds : Int) = min (now - expiration) Int64.maxValue.toInt

/-- A field that was read so may be read so later. -/
structure FieldRead.AgesTo (read later : FieldRead) : Prop where
  stale : ∀ value seconds, read = .stale value seconds →
    (∃ seconds', later = .stale value seconds') ∨ ∃ seconds', later = .expired seconds'
  expired : ∀ seconds, read = .expired seconds → ∃ seconds', later = .expired seconds'

namespace FieldRead.Exact

variable {value? : Option Value} {expiration? : Option Int} {now tolerance : Int}
  {read later : FieldRead}

/-- A field does not get fresher with time. -/
theorem agesTo (h : read.Exact value? expiration? now tolerance) {moment : Int}
    (hlater : later.Exact value? expiration? moment tolerance) (hmoment : now ≤ moment) :
    read.AgesTo later where
  stale value seconds hread := by
    obtain ⟨hvalue, expiration, hexpiration, hpast, -, -⟩ := (h.stale value seconds).1 hread
    have hmax := Int64.toInt_maxValue
    have hseconds : ((min (moment - expiration) Int64.maxValue.toInt).toNat : Int) =
        min (moment - expiration) Int64.maxValue.toInt := by omega
    by_cases htolerated : moment - expiration < tolerance
    · exact .inl ⟨_, (hlater.stale value _).2
        ⟨hvalue, expiration, hexpiration, by omega, htolerated, hseconds⟩⟩
    · exact .inr ⟨_, (hlater.expired _).2
        ⟨⟨value, hvalue⟩, expiration, hexpiration, by omega, by omega, hseconds⟩⟩
  expired seconds hread := by
    obtain ⟨hvalue, expiration, hexpiration, hpast, hbeyond, -⟩ := (h.expired seconds).1 hread
    have hmax := Int64.toInt_maxValue
    refine ⟨(min (moment - expiration) Int64.maxValue.toInt).toNat, (hlater.expired _).2
      ⟨hvalue, expiration, hexpiration, by omega, by omega, by omega⟩⟩

/-- A value that serves still does with a larger tolerance. -/
theorem usable (h : read.Exact value? expiration? now tolerance) {larger : Int}
    (hlater : later.Exact value? expiration? now larger) (hlarger : tolerance ≤ larger)
    {value : Value} (hvalue : read.value? = some value) : later.value? = some value := by
  cases read with
  | fresh stored =>
    cases hvalue
    rw [(hlater.fresh value).2 ((h.fresh value).1 rfl)]
    rfl
  | stale stored seconds =>
    cases hvalue
    obtain ⟨hstored, expiration, hexpiration, hpast, htolerated, hseconds⟩ :=
      (h.stale value seconds).1 rfl
    rw [(hlater.stale value seconds).2
      ⟨hstored, expiration, hexpiration, hpast, by omega, hseconds⟩]
    rfl
  | expired seconds => cases hvalue
  | missing => cases hvalue

end FieldRead.Exact

namespace Resolver

variable {resolver : Resolver} {now : Int64} {headers : Headers} {r : Record} {field : String}

/-- When a field expires, as an exact integer: at the date that it gives, or so long after it was
received as the lifetime lasts. -/
def exactExpiration? (resolver : Resolver) (r : Record) (field : String) : Option Int :=
  match (r.metadataOf field).int64? FieldMetadata.expirationDate with
  | some date => some date.toInt
  | none =>
    match resolver.maxAge, (r.metadataOf field).int64? FieldMetadata.receivedDate with
    | some age, some received =>
      if age.seconds < Word.count63 then some (received.toInt + age.seconds) else none
    | _, _ => none

/-- Where the date of expiration fits 64 bits, nothing is clamped. -/
theorem expiration?_exact (hfits : ∀ expiration, resolver.exactExpiration? r field =
      some expiration → expiration ≤ Int64.maxValue.toInt) :
    (resolver.expiration? r field).map Int64.toInt = resolver.exactExpiration? r field := by
  cases hdate : (r.metadataOf field).int64? FieldMetadata.expirationDate with
  | some date => simp [expiration?, exactExpiration?, hdate]
  | none =>
    cases hage : resolver.maxAge with
    | none => simp [expiration?, exactExpiration?, maxAgeSeconds?, hdate, hage]
    | some age =>
      cases hreceived : (r.metadataOf field).int64? FieldMetadata.receivedDate with
      | none =>
        simp [expiration?, exactExpiration?, hdate, hage, hreceived]
      | some received =>
        by_cases hseconds : age.seconds < Word.count63
        · have hcount : Word.count63 = 2 ^ 63 := rfl
          have hexact : resolver.exactExpiration? r field =
              some (received.toInt + age.seconds) := by
            simp [exactExpiration?, hdate, hage, hreceived, hseconds]
          have hsum := hfits _ hexact
          have hage64 : (Int64.ofInt age.seconds).toInt = age.seconds :=
            Int64.toInt_ofInt_of_le (by omega) (by omega)
          -- The lifetime is not negative, so that the sum does not leave the range below.
          have hlow := received.minValue_le_toInt
          have hclamped := toInt_clampedAdd received (Int64.ofInt age.seconds)
          rw [hage64] at hclamped
          simp only [hexact, expiration?, maxAgeSeconds?, hdate, hage, hreceived, Option.bind_some,
            if_pos hseconds, Option.map_some, hclamped, Option.some.injEq]
          omega
        · simp [expiration?, exactExpiration?, maxAgeSeconds?, hdate, hage, hreceived, hseconds]

/-- The difference to an earlier moment is no longer than 64 bits allow. -/
theorem toInt_clampedSub_of_le {expiration : Int64} (h : expiration.toInt ≤ now.toInt) :
    (clampedSub now expiration).toInt =
      min (now.toInt - expiration.toInt) Int64.maxValue.toInt := by
  have hmin := Int64.toInt_minValue
  have hmax := Int64.toInt_maxValue
  rw [toInt_clampedSub, Int.min_comm]
  exact Int.max_eq_right (by omega)

section Bounds

variable {value : Value} {expiration : Int64} (hvalue : r.fields.find? field = some value)
  (hexpiration : resolver.expiration? r field = some expiration)

include hvalue hexpiration

/-- Before the moment of expiration. -/
theorem readAt_fresh (hnow : now.toInt < expiration.toInt) :
    resolver.readAt now headers r field = .fresh value := by
  have hclamped := toInt_clampedSub now expiration
  have hmin := Int64.toInt_minValue
  have hneg : clampedSub now expiration < 0 := by
    rw [Int64.lt_iff_toInt_lt, Int64.toInt_zero]
    omega
  rw [readAt, hvalue, hexpiration]
  exact if_pos hneg

/-- At the moment of expiration and later. What is clamped is at least as long as any tolerance. -/
theorem readAt_past (hnow : expiration.toInt ≤ now.toInt) :
    resolver.readAt now headers r field =
      if headers.tolerance ≤ now.toInt - expiration.toInt then
        .expired (min (now.toInt - expiration.toInt) Int64.maxValue.toInt).toNat
      else .stale value (min (now.toInt - expiration.toInt) Int64.maxValue.toInt).toNat := by
  have hclamped := toInt_clampedSub_of_le hnow
  have hmax := Int64.toInt_maxValue
  have hnonneg : ¬clampedSub now expiration < 0 := by
    rw [Int64.lt_iff_toInt_lt, Int64.toInt_zero]
    omega
  -- A difference that is clamped is still beyond every tolerance, which has 64 bits itself.
  have htolerance : headers.tolerance ≤ Int64.maxValue.toInt := Int64.toInt_le _
  have hbound : clampedSub now expiration ≥ (headers.int64? Headers.maxStale).getD 0 ↔
      headers.tolerance ≤ now.toInt - expiration.toInt := by
    rw [ge_iff_le, Int64.le_iff_toInt_le, hclamped]
    show headers.tolerance ≤ _ ↔ _
    omega
  rw [readAt, hvalue, hexpiration]
  dsimp only
  rw [if_neg hnonneg, hclamped]
  simp only [hbound]

end Bounds

/-- Reading a field gives the outcome of exact integers: nothing to tell apart below the moment of
expiration, and above it one comparison more. -/
theorem readAt_exact {expiration? : Option Int}
    (hexpiration : (resolver.expiration? r field).map Int64.toInt = expiration?) :
    (resolver.readAt now headers r field).Exact (r.fields.find? field) expiration? now.toInt
      headers.tolerance := by
  subst hexpiration
  cases hvalue : r.fields.find? field with
  | none =>
    have hread : resolver.readAt now headers r field = .missing := by rw [readAt, hvalue]
    rw [hread]
    constructor <;> simp
  | some value =>
    cases hexpiration : resolver.expiration? r field with
    | none =>
      have hread : resolver.readAt now headers r field = .fresh value := by
        rw [readAt, hvalue, hexpiration]
      rw [hread]
      constructor <;> simp
    | some expiration =>
      have hmax := Int64.toInt_maxValue
      by_cases hfresh : now.toInt < expiration.toInt
      · rw [readAt_fresh hvalue hexpiration hfresh]
        have hpast : ¬expiration.toInt ≤ now.toInt := Int.not_le.2 hfresh
        constructor <;> simp [hfresh, hpast]
      · rw [readAt_past hvalue hexpiration (Int.not_lt.1 hfresh)]
        by_cases hbeyond : headers.tolerance ≤ now.toInt - expiration.toInt
        · rw [if_pos hbeyond]
          constructor <;> simp <;> omega
        · rw [if_neg hbeyond]
          constructor <;> simp <;> omega

/-- The headers tell the moment, whatever the clock says. -/
theorem read?_exact (hdate : headers.int64? Headers.date = some now) {expiration? : Option Int}
    (hexpiration : (resolver.expiration? r field).map Int64.toInt = expiration?)
    (clock : Instant) :
    ∃ read, resolver.read? clock headers r field = some read ∧
      read.Exact (r.fields.find? field) expiration? now.toInt headers.tolerance := by
  refine ⟨_, ?_, readAt_exact hexpiration⟩
  rw [read?, hdate]

/-- **Freshness.** Where the headers tell the moment and the date of expiration fits 64 bits, a
field is read as exact integers say, for all moments, dates and tolerances of 64 bits. Read later
with the same tolerance it is not fresher, and with a larger tolerance at the same moment a value
that serves still does. -/
theorem read_exact (resolver : Resolver) (r : Record) (field : String)
    (hdate : headers.int64? Headers.date = some now)
    (hfits : ∀ expiration, resolver.exactExpiration? r field = some expiration →
      expiration ≤ Int64.maxValue.toInt) (clock : Instant) :
    ∃ read, resolver.read? clock headers r field = some read ∧
      read.Exact (r.fields.find? field) (resolver.exactExpiration? r field) now.toInt
        headers.tolerance ∧
      (∀ (later : Headers) (moment : Int64) (clock : Instant),
        later.int64? Headers.date = some moment → now ≤ moment →
        later.tolerance = headers.tolerance →
        ∃ next, resolver.read? clock later r field = some next ∧ read.AgesTo next) ∧
      ∀ (lenient : Headers) (clock : Instant), lenient.int64? Headers.date = some now →
        headers.tolerance ≤ lenient.tolerance →
        ∃ next, resolver.read? clock lenient r field = some next ∧
          ∀ value, read.value? = some value → next.value? = some value := by
  have hexpiration := expiration?_exact hfits
  obtain ⟨read, hread, hexact⟩ := read?_exact hdate hexpiration clock
  refine ⟨read, hread, hexact, ?_, ?_⟩
  · intro later moment clock hlater hmoment htolerance
    obtain ⟨next, hnext, hnextExact⟩ := read?_exact hlater hexpiration clock
    rw [htolerance] at hnextExact
    exact ⟨next, hnext, hexact.agesTo hnextExact (Int64.le_iff_toInt_le.1 hmoment)⟩
  · intro lenient clock hlenient htolerance
    obtain ⟨next, hnext, hnextExact⟩ := read?_exact hlenient hexpiration clock
    exact ⟨next, hnext, fun value => hexact.usable hnextExact htolerance⟩

/-- A value received at the first moment of 64 bits, with a lifetime of one second, read at the last
moment with the largest tolerance. -/
theorem read_exact_extremes :
    let headers := (Headers.none.addInt64 Headers.date Int64.maxValue).addInt64 Headers.maxStale
      Int64.maxValue
    let r := ((Record.new ⟨"a"⟩ "T").withField "x" (.int 1)).withDates (some Int64.minValue) none
    let resolver : Resolver := ⟨some ⟨Duration.second⟩⟩
    headers.int64? Headers.date = some Int64.maxValue ∧
      resolver.exactExpiration? r "x" = some (-9223372036854775807) ∧
      resolver.read? ⟨0⟩ headers r "x" = some (.expired 9223372036854775807) := by
  intro headers r resolver
  have hdate : headers.int64? Headers.date = some Int64.maxValue := by decide +kernel
  have htolerance : headers.tolerance = 9223372036854775807 := by decide +kernel
  have hexpiration : resolver.exactExpiration? r "x" = some (-9223372036854775807) := by
    decide +kernel
  have hvalue : r.fields.find? "x" = some (.int 1) := rfl
  have hfits : ∀ expiration, resolver.exactExpiration? r "x" = some expiration →
      expiration ≤ Int64.maxValue.toInt := by
    intro expiration hsome
    cases hexpiration.symm.trans hsome
    decide
  obtain ⟨read, hread, hexact, -⟩ := read_exact resolver r "x" hdate hfits ⟨0⟩
  have hexpired : read = .expired 9223372036854775807 :=
    (hexact.expired _).2 ⟨⟨_, hvalue⟩, _, hexpiration, by decide, by rw [htolerance]; decide,
      by decide⟩
  exact ⟨hdate, hexpiration, hexpired ▸ hread⟩

end Resolver
end Freshness
end RecordCache
