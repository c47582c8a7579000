/-!
# Double-precision numbers

A number of the IEEE 754 format binary64 is its 64 bits.

* `Binary64.isNaN`, `isFinite`, `isNegative`: what the bits say;
* `Binary64.equals`: the comparison of the standard, for which the zeros are equal and a NaN
  equals nothing;
* `Binary64.significand`, `exponent`: the finite value as significand · 2 ^ exponent, and
  `Binary64.ceil` that value rounded up;
* `Binary64.ofScaled?`: a decimal significand times a power of ten.
-/

namespace RecordCache

/-- A number of the format binary64. -/
structure Binary64 where
  bits : UInt64
  deriving DecidableEq, Inhabited, Repr

namespace Binary64

/-- The bits below the sign. -/
def magnitude (x : Binary64) : Nat := x.bits.toNat % 0x8000000000000000

/-- Whether the sign bit is set. -/
def isNegative (x : Binary64) : Bool := 0x8000000000000000 ≤ x.bits.toNat

/-- Whether the number is a NaN. -/
def isNaN (x : Binary64) : Bool := 0x7FF0000000000000 < x.magnitude

/-- Whether the number is neither infinite nor a NaN. -/
def isFinite (x : Binary64) : Bool := x.magnitude < 0x7FF0000000000000

/-- Whether the number is one of the two zeros. -/
def isZero (x : Binary64) : Bool := x.magnitude = 0

/-- Equality of the standard: the zeros are equal, and a NaN equals nothing. -/
def equals (x y : Binary64) : Bool :=
  !x.isNaN && !y.isNaN && (x.bits == y.bits || (x.isZero && y.isZero))

/-- The number of significands that a normal number can have without its leading bit, 2 ^ 52. -/
def fractions : Nat := 0x10000000000000

/-- The integer significand of a finite number; only normal numbers have the leading bit. -/
def significand (x : Binary64) : Nat :=
  let fraction := x.magnitude % fractions
  if x.magnitude < fractions then fraction else fractions + fraction

/-- The exponent of two that goes with `significand`. -/
def exponent (x : Binary64) : Int :=
  if x.magnitude < fractions then -1074 else (x.magnitude / fractions : Nat) - 1075

/-- The least natural number that is not below a finite number. -/
def ceil (x : Binary64) : Nat :=
  if x.isNegative then 0
  else if 0 ≤ x.exponent then x.significand <<< x.exponent.toNat
  else
    let units := 1 <<< x.exponent.natAbs
    (x.significand + (units - 1)) / units

/-- Whether the next smaller number is closer than the next larger one. -/
def isLowerEdge (x : Binary64) : Bool := x.magnitude % fractions = 0 && 2 * fractions ≤ x.magnitude

/-- The number as a machine value. -/
def toFloat (x : Binary64) : Float := Float.ofBits x.bits

/-- The bits of a machine value. -/
def ofFloat (x : Float) : Binary64 := ⟨x.toBits⟩

/-- The nearest number to a natural number below 2 ^ 64. -/
def ofNat64 (n : Nat) : Binary64 := ofFloat n.toUInt64.toFloat

/-- The number with the other sign. -/
def neg (x : Binary64) : Binary64 :=
  ⟨if x.isNegative then x.magnitude.toUInt64 else (x.magnitude + 0x8000000000000000).toUInt64⟩

/-- The number with the given sign put in front of a positive one. -/
def signed (negative : Bool) (x : Binary64) : Binary64 := if negative then x.neg else x

/-- The number rounded to single precision. -/
def toSingle (x : Binary64) : Binary64 := ofFloat x.toFloat.toFloat32.toFloat

/-- The largest exponent of a power of ten that is finite. -/
def maxPowerOfTen : Nat := 308

/-- The number nearest to a power of ten. -/
def powerOfTen (n : Nat) : Float := Float.ofScientific 1 false n

/-- Divides by a power of ten, in steps of the largest one. -/
def divideByPower (x : Float) (n : Nat) : Float :=
  if n ≤ maxPowerOfTen then x / powerOfTen n
  else if x == 0 then x
  else divideByPower (x / powerOfTen maxPowerOfTen) (n - maxPowerOfTen)
termination_by n
decreasing_by simp only [maxPowerOfTen] at *; omega

/-- A significand below 2 ^ 64 times a power of ten, rounded after the conversion of the
significand and after each multiplication or division; none when it is too large. -/
def ofScaled? (significand : Nat) (exponent : Int) : Option Binary64 :=
  let x := significand.toUInt64.toFloat
  if 0 ≤ exponent then
    if exponent.toNat ≤ maxPowerOfTen then
      let product := x * powerOfTen exponent.toNat
      if product.isInf then none else some (ofFloat product)
    else if significand = 0 then some (ofFloat x)
    else none
  else
    some (ofFloat (divideByPower x exponent.natAbs))

end Binary64

end RecordCache
