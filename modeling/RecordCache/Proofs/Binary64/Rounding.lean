import Mathlib.Algebra.Order.Field.Power
import Mathlib.Algebra.Order.Field.Rat
import Mathlib.Algebra.Order.Ring.Pow
import Mathlib.Data.Nat.Log
import Mathlib.Tactic.Linarith
import Mathlib.Tactic.NormNum
import Mathlib.Tactic.Positivity
import Mathlib.Tactic.Ring

/-!
# Rounding to double precision

Machine arithmetic unpacks its operands, rounds an exact result to 53 bits, and packs it again.

* `Double` says which unpacked numbers a packed one can hold: `unpack_pack` and `double_unpack`;
* `magnitude` is the absolute value of an unpacked number;
* `roundWithAccuracy_eq`: rounding truncates the significand to 53 bits, or takes the next one;
* `double_round`, `magnitude_round_le`: when the rounded number is finite, and by how much it can
  be too large.
-/

namespace RecordCache.Rounding

open Float.Model Float.Model.UnpackedFloat

/-- The unpacked numbers that are packed without loss: the zeros, and significands of 53 bits whose
exponent is in range. Smaller significands go with the smallest exponent only. -/
def Double : UnpackedFloat → Prop
  | .zero _ => True
  | .finite _ m e _ => m < 2 ^ 53 ∧ -1074 ≤ e ∧ e ≤ 971 ∧ (2 ^ 52 ≤ m ∨ e = -1074)
  | _ => False

/-- The absolute value of a finite number. -/
def magnitude (f : UnpackedFloat) : ℚ :=
  match f with
  | .finite _ m e _ => m * 2 ^ e
  | _ => 0

/-- The exponent to which a significand of the given size is rounded. -/
def roundingExponent (m : Nat) (e : Int) : Int := max (m.log2 + 1 + e - 53) (-1074)

theorem targetExponent_eq (m : Nat) (e : Int) :
    Format.binary64.targetExponent (totalExponent m e) = roundingExponent m e := rfl

/-- The number with a rounded significand, which may have become a power of two with 54 bits. -/
def ofRounded (s : Sign) (r : Nat) (t : Int) : UnpackedFloat :=
  if h : r = 0 then .zero s
  else if r < 2 ^ 53 then .finite s r t (Nat.pos_of_ne_zero h)
  else .finite s (2 ^ 52) (t + 1) (by decide)

/-- The number with a significand that may be zero. -/
def ofParts (s : Sign) (m : Nat) (e : Int) : UnpackedFloat :=
  if h : m = 0 then .zero s else .finite s m e (Nat.pos_of_ne_zero h)

theorem ofParts_pos (s : Sign) {m : Nat} (e : Int) (h : 0 < m) :
    ofParts s m e = .finite s m e h := dif_neg h.ne'

theorem double_ofParts {s : Sign} {m : Nat} {e : Int} (hm : m < 2 ^ 53) (hlow : -1074 ≤ e)
    (hhigh : e ≤ 971) (hnormal : 2 ^ 52 ≤ m ∨ e = -1074) : Double (ofParts s m e) := by
  rcases Nat.eq_zero_or_pos m with rfl | hpos
  · trivial
  · rw [ofParts_pos s e hpos]
    exact ⟨hm, hlow, hhigh, hnormal⟩

theorem magnitude_ofParts (s : Sign) (m : Nat) (e : Int) :
    magnitude (ofParts s m e) = m * 2 ^ e := by
  rcases Nat.eq_zero_or_pos m with rfl | hpos
  · rw [Nat.cast_zero, zero_mul]
    rfl
  · rw [ofParts_pos s e hpos]
    rfl

theorem isFinite_ofParts (s : Sign) (m : Nat) (e : Int) : (ofParts s m e).isFinite = true := by
  rcases Nat.eq_zero_or_pos m with rfl | hpos
  · rfl
  · rw [ofParts_pos s e hpos]
    rfl

theorem ofRounded_of_lt (s : Sign) {r : Nat} (t : Int) (h : r < 2 ^ 53) :
    ofRounded s r t = ofParts s r t := by
  rcases Nat.eq_zero_or_pos r with rfl | hpos
  · rfl
  · rw [ofParts_pos s t hpos, ofRounded, dif_neg hpos.ne', if_pos h]

theorem ofRounded_carry (s : Sign) (t : Int) :
    ofRounded s (2 ^ 53) t = ofParts s (2 ^ 52) (t + 1) := rfl

theorem mantissa_shiftRight (em : ExtendedMantissa) (k : Nat) :
    (em >>> k).mantissa = em.mantissa / 2 ^ k := by
  induction k with
  | zero => exact (Nat.div_one _).symm
  | succ k ih =>
    show (em >>> k).mantissa / 2 = _
    rw [ih, Nat.div_div_eq_div_mul, Nat.pow_succ]

theorem mantissa_ofMantissaAndAccuracy (m : Nat) (acc : Accuracy) :
    (ExtendedMantissa.ofMantissaAndAccuracy m acc).mantissa = m := by
  rcases acc with _ | order
  · rfl
  · cases order <;> rfl

theorem le_roundedMantissa (em : ExtendedMantissa) : em.mantissa ≤ em.roundedMantissa := by
  obtain ⟨m, roundBit, stickyBit⟩ := em
  cases roundBit <;> cases stickyBit
  · exact Nat.le_refl m
  · exact Nat.le_refl m
  · exact Nat.le_add_right m _
  · exact Nat.le_succ m

theorem roundedMantissa_le (em : ExtendedMantissa) : em.roundedMantissa ≤ em.mantissa + 1 := by
  obtain ⟨m, roundBit, stickyBit⟩ := em
  cases roundBit <;> cases stickyBit
  · exact Nat.le_succ m
  · exact Nat.le_succ m
  · exact Nat.add_le_add_left (Nat.le_of_lt_succ (Nat.mod_lt m (by decide))) m
  · exact Nat.le_refl _

theorem shiftToTargetExponent_eq (m : Nat) (e : Int) (acc : Accuracy) :
    shiftToTargetExponent Format.binary64 m e acc =
      (ExtendedMantissa.ofMantissaAndAccuracy m acc >>> (roundingExponent m e - e).toNat,
        e + (roundingExponent m e - e).toNat) := rfl

theorem log2_lt_of_lt {m k : Nat} (h : m < 2 ^ k) (hk : 0 < k) : m.log2 < k := by
  rcases Nat.eq_zero_or_pos m with rfl | hm
  · simpa using hk
  · exact (Nat.log2_lt hm.ne').2 h

/-- The truncated significand has 53 bits at most. -/
theorem truncated_lt (m : Nat) (e : Int) : m / 2 ^ (roundingExponent m e - e).toNat < 2 ^ 53 := by
  refine Nat.div_lt_of_lt_mul ?_
  rw [← Nat.pow_add]
  refine Nat.lt_of_lt_of_le (Nat.lt_log2_self (n := m)) (Nat.pow_le_pow_right (by decide) ?_)
  unfold roundingExponent
  omega

/-- A number with 53 bits and an exponent in range is already rounded. -/
theorem shift_of_lt {m : Nat} {e : Int} (hm : m < 2 ^ 53) (he : -1074 ≤ e) :
    (shiftToTargetExponent Format.binary64 m e .exact) =
      (ExtendedMantissa.ofMantissaAndAccuracy m .exact, e) := by
  have hlog := log2_lt_of_lt hm (by decide)
  have hzero : (roundingExponent m e - e).toNat = 0 := by
    unfold roundingExponent
    omega
  rw [shiftToTargetExponent_eq, hzero]
  simp only [Int.natCast_zero, Int.add_zero]
  rfl

/-- A carry out of the 53 bits moves the exponent up by one. -/
theorem shift_of_carry {e : Int} (he : -1074 ≤ e) :
    (shiftToTargetExponent Format.binary64 (2 ^ 53) e .exact).1.mantissa = 2 ^ 52 ∧
      (shiftToTargetExponent Format.binary64 (2 ^ 53) e .exact).2 = e + 1 := by
  have hone : (roundingExponent (2 ^ 53) e - e).toNat = 1 := by
    unfold roundingExponent
    rw [Nat.log2_two_pow]
    omega
  rw [shiftToTargetExponent_eq, hone]
  exact ⟨rfl, rfl⟩

/-- Rounding truncates the significand to 53 bits or takes the next one. -/
theorem roundWithAccuracy_eq (s : Sign) (m : Nat) (e : Int) (acc : Accuracy) :
    ∃ r, m / 2 ^ (roundingExponent m e - e).toNat ≤ r ∧
      r ≤ m / 2 ^ (roundingExponent m e - e).toNat + 1 ∧
      roundWithAccuracy Format.binary64 s m e acc =
        ofRounded s r (e + (roundingExponent m e - e).toNat) := by
  have hexponent : -1074 ≤ e + ((roundingExponent m e - e).toNat : Int) := by
    unfold roundingExponent
    omega
  have htruncated := truncated_lt m e
  generalize hem : ExtendedMantissa.ofMantissaAndAccuracy m acc >>>
    (roundingExponent m e - e).toNat = em
  have hmantissa : em.mantissa = m / 2 ^ (roundingExponent m e - e).toNat := by
    rw [← hem, mantissa_shiftRight, mantissa_ofMantissaAndAccuracy]
  rw [← hmantissa] at htruncated ⊢
  refine ⟨em.roundedMantissa, le_roundedMantissa em, roundedMantissa_le em, ?_⟩
  have hr := roundedMantissa_le em
  rw [roundWithAccuracy, shiftToTargetExponent_eq, hem]
  dsimp only
  generalize e + ((roundingExponent m e - e).toNat : Int) = t at hexponent
  show ofParts s (shiftToTargetExponent Format.binary64 em.roundedMantissa t .exact).1.mantissa
    (shiftToTargetExponent Format.binary64 em.roundedMantissa t .exact).2 = _
  rcases Nat.lt_or_ge em.roundedMantissa (2 ^ 53) with hlt | hge
  · rw [shift_of_lt hlt hexponent, mantissa_ofMantissaAndAccuracy, ofRounded_of_lt s t hlt]
  · have hcarry : em.roundedMantissa = 2 ^ 53 := by omega
    obtain ⟨hm, he⟩ := shift_of_carry hexponent
    rw [hcarry, hm, he, ofRounded_carry]

theorem isNaN_ofRounded (s : Sign) (r : Nat) (t : Int) : (ofRounded s r t).isNaN = false := by
  rcases Nat.eq_zero_or_pos r with rfl | hpos
  · rfl
  · by_cases hlt : r < 2 ^ 53
    · rw [ofRounded_of_lt s t hlt, ofParts_pos s t hpos]
      rfl
    · rw [ofRounded, dif_neg hpos.ne', if_neg hlt]
      rfl

/-! ### When the rounded number is finite -/

theorem double_ofRounded {s : Sign} {r : Nat} {t : Int} (hr : r ≤ 2 ^ 53) (hlow : -1074 ≤ t)
    (hhigh : t < 971 ∨ t = 971 ∧ r < 2 ^ 53) (hnormal : 2 ^ 52 ≤ r ∨ t = -1074) :
    Double (ofRounded s r t) := by
  rcases Nat.lt_or_eq_of_le hr with hlt | rfl
  · rw [ofRounded_of_lt s t hlt]
    exact double_ofParts hlt hlow (by omega) hnormal
  · rw [ofRounded_carry]
    exact double_ofParts (by decide) (by omega) (by omega) (.inl (Nat.le_refl _))

theorem magnitude_ofRounded {s : Sign} {r : Nat} {t : Int} (hr : r ≤ 2 ^ 53) :
    magnitude (ofRounded s r t) = r * 2 ^ t := by
  rcases Nat.lt_or_eq_of_le hr with hlt | rfl
  · rw [ofRounded_of_lt s t hlt, magnitude_ofParts]
  · rw [ofRounded_carry, magnitude_ofParts, zpow_add_one₀ (by norm_num)]
    push_cast
    ring

/-- A significand that is not below the exponent of rounding keeps its 53 bits. -/
theorem le_truncated {m : Nat} {e : Int} (hm : 0 < m) (he : e ≤ roundingExponent m e) :
    2 ^ 52 ≤ m / 2 ^ (roundingExponent m e - e).toNat ∨ roundingExponent m e = -1074 := by
  rcases Int.lt_or_le (-1074) (roundingExponent m e) with h | h
  · left
    refine (Nat.le_div_iff_mul_le (Nat.two_pow_pos _)).2 ?_
    rw [← Nat.pow_add]
    refine Nat.le_trans (Nat.pow_le_pow_right (by decide) ?_) (Nat.log2_self_le hm.ne')
    unfold roundingExponent at h he ⊢
    omega
  · right
    unfold roundingExponent at h ⊢
    omega

/-- A number is rounded to a finite one if its exponent after rounding is in range, and its
significand is not about to carry out of the range. -/
theorem double_round (s : Sign) {m : Nat} {e : Int} (acc : Accuracy)
    (hm : 0 < m ∨ roundingExponent m e = -1074) (he : e ≤ roundingExponent m e)
    (hhigh : roundingExponent m e < 971 ∨ roundingExponent m e = 971 ∧
      m / 2 ^ (roundingExponent m e - e).toNat + 1 < 2 ^ 53) :
    Double (roundWithAccuracy Format.binary64 s m e acc) := by
  obtain ⟨r, hle, hge, heq⟩ := roundWithAccuracy_eq s m e acc
  have htruncated := truncated_lt m e
  have hexponent : e + ((roundingExponent m e - e).toNat : Int) = roundingExponent m e := by omega
  have hlow : -1074 ≤ roundingExponent m e := Int.le_max_right _ _
  rw [heq, hexponent]
  refine double_ofRounded (by omega) hlow ?_ ?_
  · omega
  · rcases hm with hm | hsmallest
    · exact (le_truncated hm he).imp_left fun h => Nat.le_trans h hle
    · exact .inr hsmallest

/-- A number with 53 bits or more is too large after rounding by one unit in the last place at
most. -/
theorem magnitude_round_le (s : Sign) {m : Nat} {e : Int} (acc : Accuracy) (hm : 2 ^ 52 ≤ m)
    (he : -1074 ≤ e) :
    magnitude (roundWithAccuracy Format.binary64 s m e acc) ≤ m * 2 ^ e * (1 + 1 / 2 ^ 52) := by
  obtain ⟨r, -, hge, heq⟩ := roundWithAccuracy_eq s m e acc
  have htruncated := truncated_lt m e
  have hlog : 52 ≤ m.log2 := (Nat.le_log2 (by omega)).2 hm
  have hshift : (roundingExponent m e - e).toNat = m.log2 - 52 := by
    unfold roundingExponent
    omega
  rw [hshift] at hge heq htruncated
  rw [heq, magnitude_ofRounded (by omega), zpow_add₀ (by norm_num : (2 : ℚ) ≠ 0), zpow_natCast]
  generalize hk : m.log2 - 52 = k at *
  -- The unit in the last place is at most the number over 2 ^ 52.
  have hunit : (2 : ℚ) ^ k ≤ m / 2 ^ 52 := by
    rw [le_div_iff₀ (by positivity), ← pow_add]
    have hself := Nat.log2_self_le (n := m) (by omega)
    have hsum : k + 52 = m.log2 := by omega
    rw [hsum]
    exact_mod_cast hself
  have htop : (r : ℚ) * 2 ^ k ≤ m + 2 ^ k := by
    have hr : r * 2 ^ k ≤ m + 2 ^ k := by
      calc r * 2 ^ k ≤ (m / 2 ^ k + 1) * 2 ^ k := Nat.mul_le_mul_right _ hge
        _ = m / 2 ^ k * 2 ^ k + 2 ^ k := by rw [Nat.add_mul, Nat.one_mul]
        _ ≤ m + 2 ^ k := Nat.add_le_add_right (Nat.div_mul_le_self m _) _
    exact_mod_cast hr
  have hpositive : (0 : ℚ) < 2 ^ e := by positivity
  calc (r : ℚ) * (2 ^ e * 2 ^ k) = r * 2 ^ k * 2 ^ e := by ring
    _ ≤ (m + m / 2 ^ 52) * 2 ^ e := by
        refine mul_le_mul_of_nonneg_right ?_ hpositive.le
        linarith
    _ = m * 2 ^ e * (1 + 1 / 2 ^ 52) := by ring

end RecordCache.Rounding
