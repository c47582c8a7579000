import RecordCache.Proofs.Binary64.Arithmetic
import RecordCache.Proofs.Binary64.Shortest

/-!
# Scaled significands

What a significand times a power of ten gives is finite, and the shortest digits of a finite number
give one.

* `isFinite_ofScaled?`: a number that is given is finite;
* `ofScaled?_negative`: a division always gives one;
* `ofScaled?_shortest`: so do the shortest digits of a finite number;
* `ceil_le_iff`: a number rounded up, by its significand and its exponent.
-/

namespace RecordCache.Binary64

open Float.Model Float.Model.UnpackedFloat

/-- A number is finite by its bits if the machine number is. -/
theorem isFinite_ofFloat {x : Float} (h : Rounding.IsFinite x) : (ofFloat x).isFinite = true := by
  have hbits := Rounding.isFinite_eq_bits x.toModel
  rw [show x.toModel.isFinite = true from h] at hbits
  exact decide_eq_true (of_decide_eq_true hbits.symm)

theorem magnitude_lt (x : Binary64) : x.magnitude < 2 ^ 63 := Nat.mod_lt _ (by decide)

theorem magnitude_ofNat {n : Nat} (h : n < 2 ^ 64) :
    (⟨n.toUInt64⟩ : Binary64).magnitude = n % 2 ^ 63 :=
  congrArg (· % 2 ^ 63) (UInt64.toNat_ofNat_of_lt' h)

theorem magnitude_neg (x : Binary64) : x.neg.magnitude = x.magnitude := by
  have hlt := magnitude_lt x
  unfold neg
  split
  · rw [magnitude_ofNat (by omega), Nat.mod_eq_of_lt hlt]
  · rw [magnitude_ofNat (by omega)]
    omega

theorem isFinite_signed (negative : Bool) (x : Binary64) :
    (signed negative x).isFinite = x.isFinite := by
  cases negative with
  | false => rfl
  | true =>
    show decide (x.neg.magnitude < _) = _
    rw [magnitude_neg]
    rfl

/-- The conversion of an integer of 64 bits is finite. -/
theorem isFinite_significand (n : Nat) : Rounding.IsFinite n.toUInt64.toFloat := by
  have hlt : n.toUInt64.toNat < 2 ^ 64 := n.toUInt64.toNat_lt
  rcases Nat.eq_zero_or_pos n.toUInt64.toNat with hzero | hpos
  · have hn : n.toUInt64 = 0 := UInt64.toNat_inj.1 hzero
    rw [hn]
    rfl
  · have happrox := Rounding.approximates_ofNat hpos hlt
    rw [show n.toUInt64.toNat.toUInt64 = n.toUInt64 from UInt64.ofNat_toNat] at happrox
    exact happrox.isFinite

/-- A product of finite numbers is finite unless it is infinite: it is no NaN. -/
theorem isFinite_product {x y : Float} (hx : Rounding.IsFinite x) (hy : Rounding.IsFinite y)
    (hinf : (x * y).isInf = false) : Rounding.IsFinite (x * y) := by
  have hnan : (UnpackedFloat.mul Format.binary64 x.toModel.unpack y.toModel.unpack).isNaN =
      false := by
    have hdx := hx.double
    have hdy := hy.double
    cases hux : x.toModel.unpack with
    | infinity s => exact (hux ▸ hdx : Rounding.Double (.infinity s)).elim
    | notANumber => exact (hux ▸ hdx : Rounding.Double .notANumber).elim
    | zero s =>
      cases huy : y.toModel.unpack with
      | infinity t => exact (huy ▸ hdy : Rounding.Double (.infinity t)).elim
      | notANumber => exact (huy ▸ hdy : Rounding.Double .notANumber).elim
      | zero t => rfl
      | finite t b j hb => rfl
    | finite s a i ha =>
      cases huy : y.toModel.unpack with
      | infinity t => exact (huy ▸ hdy : Rounding.Double (.infinity t)).elim
      | notANumber => exact (huy ▸ hdy : Rounding.Double .notANumber).elim
      | zero t => rfl
      | finite t b j hb =>
        obtain ⟨r, -, -, heq⟩ := Rounding.roundWithAccuracy_eq (s * t) (a * b) (i + j) .exact
        show (UnpackedFloat.roundWithAccuracy Format.binary64 (s * t) (a * b) (i + j)
          .exact).isNaN = false
        rw [heq]
        exact Rounding.isNaN_ofRounded _ _ _
  rcases Rounding.isFinite_or_isInf_pack hnan with hfinite | hinfinite
  · exact hfinite
  · exact absurd (hinfinite.symm.trans hinf) (by decide)

/-- A scaled significand that gives a number gives a finite one. -/
theorem isFinite_ofScaled? {n : Nat} {e : Int} {y : Binary64} (h : ofScaled? n e = some y) :
    y.isFinite = true := by
  have hx := isFinite_significand n
  unfold ofScaled? at h
  dsimp only at h
  split at h
  · split at h
    · rename_i hpower
      split at h
      · cases h
      · rename_i hinf
        cases h
        exact isFinite_ofFloat (isFinite_product hx
          (Rounding.approximates_powerOfTen hpower).isFinite (Bool.eq_false_iff.2 hinf))
    · split at h
      · cases h
        exact isFinite_ofFloat hx
      · cases h
  · cases h
    exact isFinite_ofFloat (Rounding.isFinite_divideByPower hx (by omega))

/-- A significand over a power of ten always gives a number. -/
theorem ofScaled?_negative (n : Nat) {e : Int} (he : e < 0) : (ofScaled? n e).isSome = true := by
  unfold ofScaled?
  dsimp only
  rw [if_neg (by omega)]
  rfl

/-! ### Shortest digits -/

/-- The digits depend on the magnitude only. -/
theorem shortest_congr {x y : Binary64} (h : x.magnitude = y.magnitude) :
    x.shortest = y.shortest := by
  have hinterval : x.interval = y.interval := by
    unfold interval significand exponent isLowerEdge
    rw [h]
  unfold shortest
  rw [hinterval]

/-- The magnitude of the largest finite numbers. -/
def largest : Nat := 0x7FEFFFFFFFFFFFFF

/-- The largest numbers leave no room for the errors of rounding, but their digits are known. -/
theorem ofScaled?_largest : ∀ k ≤ 4,
    let digits := (⟨(largest - k).toUInt64⟩ : Binary64).shortest
    (ofScaled? digits.1 digits.2).isSome = true := by decide +kernel

/-- Below the largest exponent there is room for the errors of rounding. -/
theorem room_of_exponent_lt {x : Binary64} (hexponent : x.exponent < 971) :
    (x.significand + 1 / 2) * 2 ^ x.exponent * (1 + 1 / 2 ^ 52) ^ 2 < Rounding.room := by
  have hlt : (x.significand : ℚ) + 1 ≤ 2 ^ 53 := by
    have := significand_lt x
    exact_mod_cast this
  have hpower : (2 : ℚ) ^ x.exponent ≤ 2 ^ (971 : Int) * (1 / 2) := by
    have hhalf : (2 : ℚ) ^ (971 : Int) * (1 / 2) = 2 ^ (970 : Int) := by
      rw [show (971 : Int) = 970 + 1 from rfl, zpow_add_one₀ two_ne_zero]
      ring
    rw [hhalf]
    exact zpow_le_zpow_right₀ (by norm_num) (by omega)
  have hpositive : (0 : ℚ) < 2 ^ (971 : Int) := by positivity
  rw [Rounding.room]
  generalize (2 : ℚ) ^ (971 : Int) = top at *
  calc ((x.significand : ℚ) + 1 / 2) * 2 ^ x.exponent * (1 + 1 / 2 ^ 52) ^ 2
      ≤ 2 ^ 53 * (top * (1 / 2)) * (1 + 1 / 2 ^ 52) ^ 2 := by
        refine mul_le_mul_of_nonneg_right ?_ (by positivity)
        exact mul_le_mul (by linarith) hpower (by positivity) (by positivity)
    _ < (2 ^ 53 - 1) * top := by
        rw [show (2 : ℚ) ^ 53 * (top * (1 / 2)) * (1 + 1 / 2 ^ 52) ^ 2 =
          2 ^ 52 * (1 + 1 / 2 ^ 52) ^ 2 * top by ring]
        exact mul_lt_mul_of_pos_right (by norm_num) hpositive

/-- With the largest exponent the significand of all but the largest numbers is at least five units
below 2 ^ 53. -/
theorem significand_add_lt {x : Binary64} (hexponent : x.exponent = 971)
    (h : x.magnitude + 4 < largest) : x.significand + 5 < 2 ^ 53 := by
  unfold exponent at hexponent
  unfold significand
  have hfractions := fractions_eq
  rw [largest] at h
  dsimp only
  split at hexponent
  · omega
  · rename_i hge
    rw [if_neg hge]
    rw [hfractions] at hexponent ⊢
    omega

/-- Below the largest numbers there is room for the errors of rounding. -/
theorem room_of_lt {x : Binary64} (hfinite : x.isFinite = true) (h : x.magnitude + 4 < largest) :
    (x.significand + 1 / 2) * 2 ^ x.exponent * (1 + Rounding.unit) ^ 2 < Rounding.room := by
  have hfactor : (1 + Rounding.unit) ^ 2 = ((1 + 1 / 2 ^ 52) ^ 2 : ℚ) := rfl
  rw [hfactor]
  rcases Int.lt_or_le x.exponent 971 with hexponent | hexponent
  · exact room_of_exponent_lt hexponent
  · have hexact : x.exponent = 971 := le_antisymm (exponent_le hfinite) hexponent
    have hbound : (x.significand : ℚ) + 6 ≤ 2 ^ 53 := by
      exact_mod_cast significand_add_lt hexact h
    rw [hexact, Rounding.room]
    have hpositive : (0 : ℚ) < 2 ^ (971 : Int) := by positivity
    generalize (2 : ℚ) ^ (971 : Int) = top at *
    calc ((x.significand : ℚ) + 1 / 2) * top * (1 + 1 / 2 ^ 52) ^ 2
        = ((x.significand : ℚ) + 1 / 2) * (1 + 1 / 2 ^ 52) ^ 2 * top := by ring
      _ < (2 ^ 53 - 1) * top := by
          refine mul_lt_mul_of_pos_right ?_ hpositive
          calc ((x.significand : ℚ) + 1 / 2) * (1 + 1 / 2 ^ 52) ^ 2
              ≤ (2 ^ 53 - 6 + 1 / 2) * (1 + 1 / 2 ^ 52) ^ 2 :=
                mul_le_mul_of_nonneg_right (by linarith) (by positivity)
            _ < 2 ^ 53 - 1 := by norm_num

/-- A power of ten in the digits of a finite number is finite. -/
theorem exponent_shortest_le {x : Binary64} (hfinite : x.isFinite = true)
    (hzero : x.isZero = false) : x.shortest.2 ≤ 308 := by
  obtain ⟨hpos, -, hnear⟩ := shortest_near hfinite hzero
  have hone : (1 : ℚ) ≤ x.shortest.1 := by exact_mod_cast hpos
  have hsignificand : (x.significand : ℚ) + 1 / 2 ≤ 2 ^ (53 : Int) := by
    have hlt := significand_lt x
    have hcast : (x.significand : ℚ) + 1 ≤ 2 ^ (53 : Int) := by exact_mod_cast hlt
    linarith
  have hpower : (10 : ℚ) ^ x.shortest.2 < 10 ^ (309 : Int) := by
    calc (10 : ℚ) ^ x.shortest.2 = 1 * 10 ^ x.shortest.2 := (one_mul _).symm
      _ ≤ decimal x.shortest.1 x.shortest.2 := mul_le_mul_of_nonneg_right hone (by positivity)
      _ ≤ (x.significand + 1 / 2) * 2 ^ x.exponent := hnear
      _ ≤ 2 ^ (53 : Int) * 2 ^ (971 : Int) :=
          mul_le_mul hsignificand (zpow_le_zpow_right₀ (by norm_num) (exponent_le hfinite))
            (by positivity) (by positivity)
      _ = 2 ^ (1024 : Int) := by
          rw [← zpow_add₀ two_ne_zero]
          rfl
      _ < 10 ^ (309 : Int) := two_pow_1024_lt
  have hlt := (zpow_lt_zpow_iff_right₀ (by norm_num)).1 hpower
  omega

/-- The shortest digits of a finite nonzero number give a number. -/
theorem ofScaled?_shortest {x : Binary64} (hfinite : x.isFinite = true)
    (hzero : x.isZero = false) :
    (ofScaled? x.shortest.1 x.shortest.2).isSome = true := by
  rcases Int.lt_or_le x.shortest.2 0 with hneg | hnonneg
  · exact ofScaled?_negative _ hneg
  have hmagnitude : x.magnitude ≤ largest := by
    have hlt : x.magnitude < 0x7FF0000000000000 := of_decide_eq_true hfinite
    exact Nat.le_of_lt_succ hlt
  rcases Nat.lt_or_ge (x.magnitude + 4) largest with hlt | hge
  · obtain ⟨hpos, hle, hnear⟩ := shortest_near hfinite hzero
    have hexponent := exponent_shortest_le hfinite hzero
    have hroom := room_of_lt hfinite hlt
    generalize x.shortest.1 = n at *
    obtain ⟨k, hk⟩ : ∃ k : Nat, x.shortest.2 = k := ⟨_, (Int.toNat_of_nonneg hnonneg).symm⟩
    rw [hk] at hnear hexponent ⊢
    have hpower : k ≤ maxPowerOfTen := by
      rw [maxPowerOfTen]
      omega
    have hfraction : (n : ℚ) * (1 + Rounding.unit) * (10 ^ k * (1 + Rounding.unit)) <
        Rounding.room := by
      calc (n : ℚ) * (1 + Rounding.unit) * (10 ^ k * (1 + Rounding.unit))
          = decimal n k * (1 + Rounding.unit) ^ 2 := by
            rw [decimal, zpow_natCast]
            ring
        _ ≤ (x.significand + 1 / 2) * 2 ^ x.exponent * (1 + Rounding.unit) ^ 2 :=
            mul_le_mul_of_nonneg_right hnear (by positivity)
        _ < Rounding.room := hroom
    have hproduct := Rounding.isFinite_mul (Rounding.approximates_ofNat hpos (by omega))
      (Rounding.approximates_powerOfTen hpower) (Nat.cast_nonneg n) hfraction
    unfold ofScaled?
    dsimp only
    rw [if_pos (Int.natCast_nonneg k), Int.toNat_natCast, if_pos hpower, hproduct.isInf_eq_false]
    rfl
  · obtain ⟨k, hk, hle⟩ : ∃ k, x.magnitude = largest - k ∧ k ≤ 4 :=
      ⟨largest - x.magnitude, by omega, by omega⟩
    have hlargest : largest < 2 ^ 63 := by decide
    have hsame : x.magnitude = (⟨(largest - k).toUInt64⟩ : Binary64).magnitude := by
      rw [magnitude_ofNat (by omega), Nat.mod_eq_of_lt (by omega), hk]
    rw [shortest_congr hsame]
    exact ofScaled?_largest k hle

/-- Rounding up gives the least natural number that is not below the value. -/
theorem ceil_le_iff {x : Binary64} (hpos : x.isNegative = false) (n : Nat) :
    x.ceil ≤ n ↔ x.significand * (2 : ℚ) ^ x.exponent ≤ n := by
  rw [ceil, hpos, if_neg Bool.false_ne_true]
  split
  · rename_i hexponent
    obtain ⟨k, hk⟩ := Int.eq_ofNat_of_zero_le hexponent
    rw [hk, Int.toNat_natCast, Nat.shiftLeft_eq, zpow_natCast]
    exact_mod_cast Iff.rfl
  · rename_i hexponent
    obtain ⟨k, hk⟩ : ∃ k : Nat, x.exponent = -k := ⟨x.exponent.natAbs, by omega⟩
    have hunits : 0 < 2 ^ k := Nat.two_pow_pos k
    have hle : (x.significand + (2 ^ k - 1)) / 2 ^ k ≤ n ↔ x.significand ≤ n * 2 ^ k := by
      rw [← Nat.lt_add_one_iff, Nat.div_lt_iff_lt_mul hunits, Nat.succ_mul]
      omega
    rw [hk, Int.natAbs_neg, Int.natAbs_natCast, Nat.one_shiftLeft, hle, zpow_neg, zpow_natCast,
      ← div_eq_mul_inv, div_le_iff₀ (by positivity)]
    exact_mod_cast Iff.rfl

end RecordCache.Binary64
