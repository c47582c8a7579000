import Mathlib.Algebra.Order.Field.Power
import Mathlib.Algebra.Order.Field.Rat
import Mathlib.Tactic.Linarith
import Mathlib.Tactic.NormNum
import Mathlib.Tactic.Positivity
import Mathlib.Tactic.Ring
import RecordCache.Binary64.Shortest

/-!
# Bounds on shortest digits

The search for the shortest digits of a number moves along decimal grids. Its result is positive,
has at most 18 digits and does not pass the upper end of the interval of the number.

* `Interval.Near` says this of a point of a grid, as a decimal fraction;
* `Interval.leadingExponent_spec`, `firstHit_near`, `dropZeros_eq`: one lemma for each stage of the
  search;
* `shortest_near`: the whole of it.
-/

namespace RecordCache.Binary64

/-- A decimal fraction as a rational number. -/
def decimal (n : Nat) (e : Int) : ℚ := n * 10 ^ e

theorem ten_zpow_eq (e : Int) : (10 : ℚ) ^ e = 10 ^ e.toNat / 10 ^ (-e).toNat := by
  rcases Int.le_total 0 e with h | h
  · have hneg : (-e).toNat = 0 := by omega
    rw [hneg, pow_zero, div_one, ← zpow_natCast, Int.toNat_of_nonneg h]
  · have hpos : e.toNat = 0 := by omega
    rw [hpos, pow_zero, one_div, ← zpow_natCast, Int.toNat_of_nonneg (by omega), ← zpow_neg,
      neg_neg]

namespace Interval

variable {i : Interval}

/-- The value of the interval. -/
def center (i : Interval) : ℚ := i.value / i.denominator

/-- The upper end of the interval. -/
def top (i : Interval) : ℚ := i.high / i.denominator

/-- The denominator is positive and the value lies below the upper end. -/
structure Proper (i : Interval) : Prop where
  denominator : 0 < i.denominator
  value : i.value ≤ i.high

theorem floorOnGrid_le (h : i.Proper) (e : Int) : decimal (i.floorOnGrid e) e ≤ i.center := by
  have hden : (0 : ℚ) < i.denominator := by exact_mod_cast h.denominator
  have hfloor := Nat.div_mul_le_self (i.value * 10 ^ (-e).toNat) (i.denominator * 10 ^ e.toNat)
  have hcast : ((i.floorOnGrid e : Nat) : ℚ) * (i.denominator * 10 ^ e.toNat) ≤
      i.value * 10 ^ (-e).toNat := by exact_mod_cast hfloor
  rw [decimal, center, ten_zpow_eq, ← mul_div_assoc, div_le_div_iff₀ (by positivity) hden]
  linarith

theorem center_lt (h : i.Proper) (e : Int) : i.center < decimal (i.floorOnGrid e + 1) e := by
  have hden : (0 : ℚ) < i.denominator := by exact_mod_cast h.denominator
  have hpos : 0 < i.denominator * 10 ^ e.toNat :=
    Nat.mul_pos h.denominator (Nat.pow_pos (by decide))
  have hfloor := Nat.lt_mul_div_succ (i.value * 10 ^ (-e).toNat) hpos
  have hcast : (i.value : ℚ) * 10 ^ (-e).toNat <
      i.denominator * 10 ^ e.toNat * ((i.floorOnGrid e : Nat) + 1) := by exact_mod_cast hfloor
  rw [decimal, center, ten_zpow_eq, ← mul_div_assoc, div_lt_div_iff₀ hden (by positivity)]
  push_cast
  linarith

/-- A fraction in the interval does not pass its upper end. -/
theorem le_top_of_contains (h : i.Proper) {n : Nat} {e : Int}
    (hcontains : i.contains (gridPoint n e).1 (gridPoint n e).2 = true) :
    decimal n e ≤ i.top := by
  have hden : (0 : ℚ) < i.denominator := by exact_mod_cast h.denominator
  have hle : n * 10 ^ e.toNat * i.denominator ≤ i.high * 10 ^ (-e).toNat := by
    unfold contains gridPoint at hcontains
    split at hcontains
    · simp only [Bool.and_eq_true, decide_eq_true_eq] at hcontains
      exact hcontains.2
    · simp only [Bool.and_eq_true, decide_eq_true_eq] at hcontains
      exact Nat.le_of_lt hcontains.2
  have hcast : (n : ℚ) * 10 ^ e.toNat * i.denominator ≤ i.high * 10 ^ (-e).toNat := by
    exact_mod_cast hle
  rw [decimal, top, ten_zpow_eq, ← mul_div_assoc, div_le_div_iff₀ (by positivity) hden]
  exact hcast

/-- A point of a grid that the search may give: positive, next to the value, and not past the
interval. -/
structure Near (i : Interval) (n : Nat) (e : Int) : Prop where
  positive : 0 < n
  le_next : n ≤ i.floorOnGrid e + 1
  le_top : decimal n e ≤ i.top

theorem gridHit?_near (h : i.Proper) {n : Nat} {e : Int} (hhit : i.gridHit? e = some n) :
    i.Near n e := by
  unfold gridHit? at hhit
  dsimp only at hhit
  have hbelow : (decide (0 < i.floorOnGrid e) && i.contains (gridPoint (i.floorOnGrid e) e).1
      (gridPoint (i.floorOnGrid e) e).2) = true → i.Near (i.floorOnGrid e) e := by
    intro hcontains
    rw [Bool.and_eq_true, decide_eq_true_eq] at hcontains
    exact ⟨hcontains.1, Nat.le_succ _, le_top_of_contains h hcontains.2⟩
  have habove : i.contains (gridPoint (i.floorOnGrid e + 1) e).1
      (gridPoint (i.floorOnGrid e + 1) e).2 = true → i.Near (i.floorOnGrid e + 1) e :=
    fun hcontains => ⟨Nat.succ_pos _, Nat.le_refl _, le_top_of_contains h hcontains⟩
  split at hhit
  · cases hhit
  · rename_i hb _
    cases hhit
    exact hbelow hb
  · rename_i _ ha
    cases hhit
    exact habove ha
  · rename_i hb ha
    split at hhit
    · cases hhit
      exact hbelow hb
    split at hhit
    · cases hhit
      exact habove ha
    split at hhit
    · cases hhit
      exact hbelow hb
    · cases hhit
      exact habove ha

/-- The grid on which the search ends is at most `steps` times finer by ten than the first. -/
theorem firstHit_near (h : i.Proper) (steps : Nat) {e : Int} (he : 10 ^ e ≤ i.center) :
    i.Near (i.firstHit steps e).1 (i.firstHit steps e).2 ∧ e - steps ≤ (i.firstHit steps e).2 := by
  induction steps generalizing e with
  | zero =>
    refine ⟨⟨?_, Nat.le_succ _, ?_⟩, ?_⟩
    · -- The value has reached the grid, so that its floor is not zero.
      refine Nat.pos_of_ne_zero fun hzero => ?_
      have hlt := center_lt h e
      have hfloor : i.floorOnGrid e = 0 := hzero
      rw [hfloor, decimal] at hlt
      push_cast at hlt
      linarith
    · refine le_trans (floorOnGrid_le h e) ?_
      have hvalue : (i.value : ℚ) ≤ i.high := by exact_mod_cast h.value
      exact div_le_div_of_nonneg_right hvalue (by positivity)
    · simp [firstHit]
  | succ steps ih =>
    rw [firstHit]
    cases hhit : i.gridHit? e with
    | some n =>
      refine ⟨gridHit?_near h hhit, ?_⟩
      show e - ((steps + 1 : Nat) : Int) ≤ e
      omega
    | none =>
      have hfiner : (10 : ℚ) ^ (e - 1) ≤ i.center :=
        le_trans (zpow_le_zpow_right₀ (by norm_num) (by omega)) he
      obtain ⟨hnear, hle⟩ := ih hfiner
      refine ⟨hnear, ?_⟩
      show e - ((steps + 1 : Nat) : Int) ≤ (i.firstHit steps (e - 1)).2
      omega

/-- The leading exponent is that of the first digit of the value. -/
theorem leadingExponent_spec (h : i.Proper) (steps : Nat) {e : Int}
    (hlow : 10 ^ (e - steps) ≤ i.center) (hhigh : i.center < 10 ^ (e + 1)) :
    10 ^ i.leadingExponent steps e ≤ i.center ∧
      i.center < 10 ^ (i.leadingExponent steps e + 1) := by
  induction steps generalizing e with
  | zero =>
    rw [Nat.cast_zero, sub_zero] at hlow
    exact ⟨hlow, hhigh⟩
  | succ steps ih =>
    rw [leadingExponent]
    split
    · rename_i hpos
      refine ⟨le_trans ?_ (floorOnGrid_le h e), hhigh⟩
      have hone : (1 : ℚ) ≤ (i.floorOnGrid e : Nat) := by exact_mod_cast hpos
      calc (10 : ℚ) ^ e = 1 * 10 ^ e := (one_mul _).symm
        _ ≤ decimal (i.floorOnGrid e) e := mul_le_mul_of_nonneg_right hone (by positivity)
    · rename_i hzero
      refine ih ?_ ?_
      · have hexponent : e - 1 - (steps : Int) = e - ((steps + 1 : Nat) : Int) := by omega
        rw [hexponent]
        exact hlow
      · have hfloor : i.floorOnGrid e = 0 := by omega
        have hlt := center_lt h e
        rw [hfloor, decimal] at hlt
        rw [sub_add_cancel]
        push_cast at hlt
        linarith

/-- The floor of the value on a grid has as many digits as lie between the grid and the value. -/
theorem floorOnGrid_lt (h : i.Proper) {e : Int} {k : Nat} (hlt : i.center < 10 ^ (e + k)) :
    i.floorOnGrid e < 10 ^ k := by
  have hle := lt_of_le_of_lt (floorOnGrid_le h e) hlt
  rw [decimal, zpow_add₀ (by norm_num), mul_comm ((10 : ℚ) ^ e), zpow_natCast] at hle
  have hcast := lt_of_mul_lt_mul_right hle (by positivity)
  exact_mod_cast hcast

end Interval

/-- Dropping zeros does not change the fraction, nor make the digits more. -/
theorem dropZeros_eq (steps n : Nat) (e : Int) (h : 0 < n) :
    decimal (dropZeros steps n e).1 (dropZeros steps n e).2 = decimal n e ∧
      0 < (dropZeros steps n e).1 ∧ (dropZeros steps n e).1 ≤ n := by
  induction steps generalizing n e with
  | zero => exact ⟨rfl, h, Nat.le_refl n⟩
  | succ steps ih =>
    rw [dropZeros]
    split
    · rename_i hzero
      rw [Bool.and_eq_true, decide_eq_true_eq, decide_eq_true_eq] at hzero
      obtain ⟨heq, hpos, hle⟩ := ih (n / 10) (e + 1) (by omega)
      refine ⟨?_, hpos, by omega⟩
      have hten : n = n / 10 * 10 := by omega
      rw [heq, decimal, decimal, zpow_add_one₀ (by norm_num)]
      nth_rewrite 2 [hten]
      push_cast
      ring
    · exact ⟨rfl, h, Nat.le_refl n⟩

/-! ### The interval of a finite number -/

theorem fractions_eq : fractions = 2 ^ 52 := rfl

theorem significand_lt (x : Binary64) : x.significand < 2 ^ 53 := by
  have hmod := Nat.mod_lt x.magnitude (show 0 < fractions by decide)
  rw [fractions_eq] at hmod
  unfold significand
  dsimp only
  rw [fractions_eq]
  split <;> omega

theorem significand_pos {x : Binary64} (h : x.isZero = false) : 0 < x.significand := by
  have hne : x.magnitude ≠ 0 := of_decide_eq_false h
  unfold significand
  have := fractions_eq
  dsimp only
  split
  · rename_i hlt
    rw [Nat.mod_eq_of_lt hlt]
    omega
  · omega

theorem le_exponent (x : Binary64) : -1074 ≤ x.exponent := by
  unfold exponent
  have := fractions_eq
  split
  · omega
  · rename_i hge
    have hone : 1 ≤ x.magnitude / fractions := (Nat.le_div_iff_mul_le (by decide)).2 (by omega)
    omega

theorem exponent_le {x : Binary64} (h : x.isFinite = true) : x.exponent ≤ 971 := by
  have hlt : x.magnitude < 0x7FF0000000000000 := of_decide_eq_true h
  unfold exponent
  split
  · omega
  · have hdiv : x.magnitude / fractions < 2047 :=
      Nat.div_lt_of_lt_mul (Nat.lt_of_lt_of_le hlt (by decide))
    omega

theorem two_zpow_eq (e : Int) :
    (2 : ℚ) ^ e = 4 * (2 ^ (e - 2).toNat / 2 ^ (2 - e).toNat) := by
  have hfour : (4 : ℚ) = 2 ^ (2 : Int) := by norm_num
  have hdiff : (2 : ℚ) ^ (e - 2).toNat / 2 ^ (2 - e).toNat = 2 ^ (e - 2) := by
    rw [← zpow_natCast, ← zpow_natCast, ← zpow_sub₀ (by norm_num)]
    congr 1
    omega
  rw [hdiff, hfour, ← zpow_add₀ (by norm_num)]
  congr 1
  omega

theorem interval_proper (x : Binary64) : x.interval.Proper where
  denominator := Nat.two_pow_pos _
  value := Nat.mul_le_mul_right _ (Nat.le_add_right _ _)

theorem interval_center (x : Binary64) : x.interval.center = x.significand * 2 ^ x.exponent := by
  show ((4 * x.significand * 2 ^ (x.exponent - 2).toNat : Nat) : ℚ) /
    ((2 ^ (2 - x.exponent).toNat : Nat) : ℚ) = _
  rw [two_zpow_eq]
  push_cast
  ring

theorem interval_top (x : Binary64) :
    x.interval.top = (x.significand + 1 / 2) * 2 ^ x.exponent := by
  show (((4 * x.significand + 2) * 2 ^ (x.exponent - 2).toNat : Nat) : ℚ) /
    ((2 ^ (2 - x.exponent).toNat : Nat) : ℚ) = _
  rw [two_zpow_eq]
  push_cast
  ring

/-- Powers of two beside powers of ten: 2 ^ 93 is a little less than 10 ^ 28. -/
theorem two_pow_le (k : Nat) : (2 : ℚ) ^ (93 * k) ≤ 10 ^ (28 * k) := by
  rw [pow_mul, pow_mul]
  exact pow_le_pow_left₀ (by norm_num) (by norm_num) k

theorem two_pow_1023_le : (2 : ℚ) ^ (1023 : Nat) ≤ 10 ^ (308 : Nat) := two_pow_le 11

/-- The first power of two that is not finite. -/
theorem two_pow_1024_lt : (2 : ℚ) ^ (1024 : Int) < 10 ^ (309 : Int) := by
  calc (2 : ℚ) ^ (1024 : Int) = 2 ^ (1023 : Nat) * 2 := by
        rw [← pow_succ]
        rfl
    _ ≤ 10 ^ (308 : Nat) * 2 := mul_le_mul_of_nonneg_right two_pow_1023_le (by norm_num)
    _ < 10 ^ (308 : Nat) * 10 := mul_lt_mul_of_pos_left (by norm_num) (by positivity)
    _ = 10 ^ (309 : Int) := by
        rw [← pow_succ]
        rfl

/-- The size of a finite nonzero number lies between the decimal grids that are searched. -/
theorem interval_range {x : Binary64} (hfinite : x.isFinite = true) (hzero : x.isZero = false) :
    10 ^ (-331 : Int) ≤ x.interval.center ∧ x.interval.center < 10 ^ (310 : Int) := by
  have hpos : (1 : ℚ) ≤ x.significand := by exact_mod_cast significand_pos hzero
  have hlt : (x.significand : ℚ) < 2 ^ (53 : Int) := by
    have := significand_lt x
    exact_mod_cast this
  rw [interval_center]
  constructor
  · have hsmall : (10 : ℚ) ^ (-331 : Int) ≤ 2 ^ (-1074 : Int) := by
      rw [zpow_neg, zpow_neg]
      refine inv_anti₀ (by positivity) ?_
      calc (2 : ℚ) ^ (1074 : Int) = 2 ^ (1023 : Nat) * 2 ^ (51 : Nat) := by
            rw [← pow_add]
            rfl
        _ ≤ 10 ^ (308 : Nat) * 10 ^ (23 : Nat) :=
            mul_le_mul two_pow_1023_le (by norm_num) (by positivity) (by positivity)
        _ = 10 ^ (331 : Int) := by
            rw [← pow_add]
            rfl
    calc (10 : ℚ) ^ (-331 : Int) ≤ 2 ^ (-1074 : Int) := hsmall
      _ ≤ 2 ^ x.exponent := zpow_le_zpow_right₀ (by norm_num) (le_exponent x)
      _ = 1 * 2 ^ x.exponent := (one_mul _).symm
      _ ≤ x.significand * 2 ^ x.exponent := mul_le_mul_of_nonneg_right hpos (by positivity)
  · calc (x.significand : ℚ) * 2 ^ x.exponent
        ≤ 2 ^ (53 : Int) * 2 ^ (971 : Int) :=
          mul_le_mul hlt.le (zpow_le_zpow_right₀ (by norm_num) (exponent_le hfinite))
            (by positivity) (by positivity)
      _ = 2 ^ (1024 : Int) := by rw [← zpow_add₀ (by norm_num)]; rfl
      _ < 10 ^ (309 : Int) := two_pow_1024_lt
      _ ≤ 10 ^ (310 : Int) := zpow_le_zpow_right₀ (by norm_num) (by decide)

theorem leadingExponent_interval {x : Binary64} (hfinite : x.isFinite = true)
    (hzero : x.isZero = false) :
    10 ^ x.interval.leadingExponent 640 309 ≤ x.interval.center ∧
      x.interval.center < 10 ^ (x.interval.leadingExponent 640 309 + 1) := by
  obtain ⟨hlow, hhigh⟩ := interval_range hfinite hzero
  refine Interval.leadingExponent_spec (interval_proper x) 640 ?_ ?_
  · have hsteps : (309 : Int) - ((640 : Nat) : Int) = -331 := by omega
    rw [hsteps]
    exact hlow
  · have hnext : (309 : Int) + 1 = 310 := by omega
    rw [hnext]
    exact hhigh

/-- The first hit below a leading exponent has 18 digits at most. -/
theorem firstHit_le {i : Interval} (h : i.Proper) {first : Int} (hle : 10 ^ first ≤ i.center)
    (hlt : i.center < 10 ^ (first + 1)) : (i.firstHit 17 first).1 ≤ 10 ^ 18 := by
  obtain ⟨hnear, hgrid⟩ := Interval.firstHit_near h 17 hle
  generalize i.firstHit 17 first = hit at *
  have hdigits : i.floorOnGrid hit.2 < 10 ^ 18 := by
    refine Interval.floorOnGrid_lt h (lt_of_lt_of_le hlt ?_)
    refine zpow_le_zpow_right₀ (by norm_num) ?_
    push_cast
    omega
  have hnext := hnear.le_next
  omega

/-- The shortest digits of a finite nonzero number are a positive number of 18 digits at most, not
past the upper end of the interval. -/
theorem shortest_near {x : Binary64} (hfinite : x.isFinite = true) (hzero : x.isZero = false) :
    0 < x.shortest.1 ∧ x.shortest.1 ≤ 10 ^ 18 ∧
      decimal x.shortest.1 x.shortest.2 ≤ (x.significand + 1 / 2) * 2 ^ x.exponent := by
  have hproper := interval_proper x
  obtain ⟨hle, hlt⟩ := leadingExponent_interval hfinite hzero
  obtain ⟨hnear, -⟩ := Interval.firstHit_near hproper 17 hle
  have hdigits := firstHit_le hproper hle hlt
  obtain ⟨heq, hpos, hdrop⟩ := dropZeros_eq 18 _ (x.interval.firstHit 17
    (x.interval.leadingExponent 640 309)).2 hnear.positive
  refine ⟨hpos, Nat.le_trans hdrop hdigits, ?_⟩
  rw [← interval_top]
  exact le_of_eq_of_le heq hnear.le_top

end RecordCache.Binary64
