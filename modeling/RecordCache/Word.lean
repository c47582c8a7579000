/-!
# Words

How many values the machine integers have that occur in texts and in counters.
-/

namespace RecordCache.Word

/-- The number of values of 32 bits. -/
abbrev count32 : Nat := 4294967296

/-- The number of values of 63 bits, one more than the largest signed integer of 64 bits. -/
abbrev count63 : Nat := 9223372036854775808

/-- The number of values of 64 bits. -/
abbrev count64 : Nat := 18446744073709551616

end RecordCache.Word
