import RecordCache.Binary64
import RecordCache.Proofs.Binary64.Packing

/-!
# Machine arithmetic on finite numbers

Which results are finite, as far as reading a decimal literal goes: the conversion of a natural
number, the powers of ten, a product that stays below the largest number, and a quotient by a power
of ten.

* `IsFinite` says that a machine number is finite, and `Approximates` that it is positive with all
  its bits and hardly larger than a given fraction;
* `approximates_ofNat`, `approximates_powerOfTen`;
* `isFinite_mul`: a product of approximations is finite if the fractions leave room;
* `isFinite_divideByPower`: a quotient by a power of ten is finite.
-/

namespace RecordCache.Rounding

open Float.Model Float.Model.UnpackedFloat

/-- The machine number is neither infinite nor a NaN. -/
def IsFinite (x : Float) : Prop := x.toModel.isFinite = true

theorem IsFinite.double {x : Float} (h : IsFinite x) : Double x.toModel.unpack := double_unpack h

theorem IsFinite.isInf_eq_false {x : Float} (h : IsFinite x) : x.isInf = false := by
  have hdouble := h.double
  show x.toModel.unpack.isInf = false
  cases hunpack : x.toModel.unpack with
  | infinity s => exact (hunpack ▸ hdouble : Double (.infinity s)).elim
  | _ => rfl

/-- What a number in range is packed to is finite. -/
theorem isFinite_pack {f : UnpackedFloat} (h : Double f) : IsFinite (.ofModel (.pack f)) := by
  show (Float.Model.pack f).unpack.isFinite = true
  rw [unpack_pack h]
  cases f with
  | infinity s => exact h.elim
  | notANumber => exact h.elim
  | zero s => rfl
  | finite s m e hm => rfl

/-- A bound on the relative error of rounding. -/
def unit : ℚ := 1 / 2 ^ 52

/-- The number is positive with all its bits, not tiny, and exceeds the fraction by the error of
one rounding at most. -/
def Approximates (x : Float) (q : ℚ) : Prop :=
  ∃ m e h, x.toModel.unpack = .finite .positive m e h ∧ 2 ^ 52 ≤ m ∧ m < 2 ^ 53 ∧ -52 ≤ e ∧
    (m : ℚ) * 2 ^ e ≤ q * (1 + unit)

theorem Approximates.isFinite {x : Float} {q : ℚ} (h : Approximates x q) : IsFinite x := by
  obtain ⟨m, e, hm, hunpack, -⟩ := h
  show x.toModel.unpack.isFinite = true
  rw [hunpack]
  rfl

/-! ### Natural numbers -/

/-- The places by which a number below 2 ^ 53 is moved up to get 53 bits. -/
def lift (n : Nat) : Nat := 52 - n.log2

theorem unpackedOfNat_eq {n : Nat} (h : 0 < n) :
    UnpackedFloat.ofNat Format.binary64 n =
      roundWithAccuracy Format.binary64 .positive (n * 2 ^ lift n) (-(lift n : Int)) .exact := by
  have hpos : compare (n : Int) 0 = .gt := Int.compare_eq_gt.2 (by omega)
  rw [UnpackedFloat.ofNat, UnpackedFloat.ofInt, UnpackedFloat.normalize, hpos]
  show UnpackedFloat.round Format.binary64 .positive (n : Int).toNat 0 = _
  rw [Int.toNat_natCast, UnpackedFloat.round, targetExponent_eq]
  have hshift : (0 - roundingExponent n 0).toNat = lift n := by
    unfold roundingExponent lift
    omega
  rw [decreaseExponent, hshift, Nat.shiftLeft_eq, Int.zero_sub]

theorem log2_mul_two_pow {n : Nat} (h : 0 < n) (k : Nat) : (n * 2 ^ k).log2 = n.log2 + k := by
  have hlow := Nat.log2_self_le h.ne'
  have hhigh := Nat.lt_log2_self (n := n)
  have hpow := Nat.two_pow_pos k
  refine (Nat.log2_eq_iff (Nat.mul_pos h hpow).ne').2 ⟨?_, ?_⟩
  · rw [Nat.pow_add]
    exact Nat.mul_le_mul_right _ hlow
  · rw [Nat.add_right_comm, Nat.pow_add]
    exact Nat.mul_lt_mul_of_pos_right hhigh hpow

theorem le_lift {n : Nat} (h : 0 < n) : 2 ^ 52 ≤ n * 2 ^ lift n := by
  have hlog : 52 ≤ (n * 2 ^ lift n).log2 := by
    rw [log2_mul_two_pow h, lift]
    omega
  exact Nat.le_trans (Nat.pow_le_pow_right (by decide) hlog)
    (Nat.log2_self_le (Nat.mul_pos h (Nat.two_pow_pos _)).ne')

theorem ofRounded_full {s : Sign} {r : Nat} {t : Int} (hlow : 2 ^ 52 ≤ r) :
    ∃ m e h, ofRounded s r t = .finite s m e h ∧ 2 ^ 52 ≤ m ∧ m < 2 ^ 53 ∧ t ≤ e := by
  by_cases hlt : r < 2 ^ 53
  · rw [ofRounded_of_lt s t hlt, ofParts_pos s t (by omega)]
    exact ⟨r, t, by omega, rfl, hlow, hlt, Int.le_refl t⟩
  · rw [ofRounded, dif_neg (by omega), if_neg hlt]
    exact ⟨2 ^ 52, t + 1, by decide, rfl, Nat.le_refl _, by decide, by omega⟩

/-- A positive integer of 64 bits is converted to an approximation. -/
theorem approximates_ofNat {n : Nat} (hpos : 0 < n) (hlt : n < 2 ^ 64) :
    Approximates n.toUInt64.toFloat n := by
  have htoNat : n.toUInt64.toNat = n := Nat.mod_eq_of_lt hlt
  have hlog : n.log2 < 64 := log2_lt_of_lt hlt (by decide)
  have hfull := le_lift hpos
  have hle : -(lift n : Int) ≤ roundingExponent (n * 2 ^ lift n) (-(lift n : Int)) := by
    unfold roundingExponent
    rw [log2_mul_two_pow hpos]
    unfold lift
    omega
  have hhigh : roundingExponent (n * 2 ^ lift n) (-(lift n : Int)) < 971 := by
    unfold roundingExponent
    rw [log2_mul_two_pow hpos]
    omega
  have hlift : lift n ≤ 52 := Nat.sub_le _ _
  have hdouble := double_round .positive .exact
    (.inl (Nat.lt_of_lt_of_le (by decide) hfull)) hle (.inl hhigh)
  have hbound := magnitude_round_le .positive .exact hfull
    (show -1074 ≤ -(lift n : Int) by omega)
  have hunpack : n.toUInt64.toFloat.toModel.unpack =
      roundWithAccuracy Format.binary64 .positive (n * 2 ^ lift n) (-(lift n : Int)) .exact := by
    show (Float.Model.pack (UnpackedFloat.ofNat Format.binary64 n.toUInt64.toNat)).unpack = _
    rw [htoNat, unpackedOfNat_eq hpos, unpack_pack hdouble]
  obtain ⟨r, hr, -, heq⟩ := roundWithAccuracy_eq .positive (n * 2 ^ lift n) (-(lift n : Int)) .exact
  have hrfull : 2 ^ 52 ≤ r := by
    refine Nat.le_trans
      ((le_truncated (Nat.lt_of_lt_of_le (by decide) hfull) hle).resolve_right ?_) hr
    omega
  obtain ⟨m, e, hm, hrounded, hlow, hhigh, he⟩ := ofRounded_full (s := .positive) hrfull
  refine ⟨m, e, hm, by rw [hunpack, heq, hrounded], hlow, hhigh, by omega, ?_⟩
  rw [heq, hrounded] at hbound
  have hvalue : ((n * 2 ^ lift n : Nat) : ℚ) * 2 ^ (-(lift n : Int)) = n := by
    push_cast
    rw [zpow_neg, zpow_natCast, mul_assoc, mul_inv_cancel₀ (by positivity), mul_one]
  rw [hvalue] at hbound
  exact hbound

/-! ### Powers of ten -/

/-- Whether a power of ten is approximated, as a computation. -/
def checksPower (k : Nat) : Bool :=
  match (Binary64.powerOfTen k).toModel.unpack with
  | .finite .positive m e _ =>
    2 ^ 52 ≤ m && m < 2 ^ 53 && (if k = 0 then -52 else -51 : Int) ≤ e &&
      m * 2 ^ (e + 52).toNat ≤ 10 ^ k * (2 ^ 52 + 1)
  | _ => false

theorem checksPower_all : ∀ k ≤ Binary64.maxPowerOfTen, checksPower k = true := by decide +kernel

theorem powerOfTen_unpack {k : Nat} (h : k ≤ Binary64.maxPowerOfTen) :
    ∃ m e hm, (Binary64.powerOfTen k).toModel.unpack = .finite .positive m e hm ∧ 2 ^ 52 ≤ m ∧
      m < 2 ^ 53 ∧ -52 ≤ e ∧ (0 < k → -51 ≤ e) ∧
      m * 2 ^ (e + 52).toNat ≤ 10 ^ k * (2 ^ 52 + 1) := by
  have hcheck := checksPower_all k h
  cases hunpack : (Binary64.powerOfTen k).toModel.unpack with
  | finite s m e hm =>
    rw [checksPower, hunpack] at hcheck
    cases s with
    | negative => cases hcheck
    | positive =>
      obtain ⟨⟨⟨hlow, hhigh⟩, he⟩, hle⟩ :
          ((2 ^ 52 ≤ m ∧ m < 2 ^ 53) ∧ (if k = 0 then -52 else -51 : Int) ≤ e) ∧
            m * 2 ^ (e + 52).toNat ≤ 10 ^ k * (2 ^ 52 + 1) := by
        simpa only [Bool.and_eq_true, decide_eq_true_eq] using hcheck
      refine ⟨m, e, hm, rfl, hlow, hhigh, ?_, ?_, hle⟩
      · split at he <;> omega
      · intro hk
        rwa [if_neg hk.ne'] at he
  | _ =>
    rw [checksPower, hunpack] at hcheck
    cases hcheck

/-- The powers of ten that are finite are approximated. -/
theorem approximates_powerOfTen {k : Nat} (h : k ≤ Binary64.maxPowerOfTen) :
    Approximates (Binary64.powerOfTen k) (10 ^ k) := by
  obtain ⟨m, e, hm, hunpack, hlow, hhigh, he, -, hle⟩ := powerOfTen_unpack h
  refine ⟨m, e, hm, hunpack, hlow, hhigh, he, ?_⟩
  obtain ⟨j, rfl⟩ : ∃ j : Nat, e = j - 52 := ⟨(e + 52).toNat, by omega⟩
  have hj : ((j : Int) - 52 + 52).toNat = j := by omega
  rw [hj] at hle
  have hcast : (m : ℚ) * 2 ^ j ≤ 10 ^ k * (2 ^ 52 + 1) := by exact_mod_cast hle
  have hsplit : (10 : ℚ) ^ k * (1 + 1 / 2 ^ 52) = 10 ^ k * (2 ^ 52 + 1) / 2 ^ 52 := by ring
  rw [zpow_sub₀ (by norm_num), zpow_natCast, unit, hsplit, mul_div_assoc' (m : ℚ)]
  exact div_le_div_of_nonneg_right hcast (by positivity)

/-! ### Products -/

/-- The room below the largest numbers: what stays below is finite after rounding. -/
def room : ℚ := (2 ^ 53 - 1) * 2 ^ (971 : Int)

/-- What leaves room is below 2 ^ 1024. -/
theorem log2_add_lt_of_lt_room {m : Nat} {e : Int} (hm : 0 < m) (hroom : (m : ℚ) * 2 ^ e < room) :
    (m.log2 : Int) + e < 1024 := by
  have hself : ((2 ^ m.log2 : Nat) : ℚ) ≤ m := Nat.cast_le.2 (Nat.log2_self_le hm.ne')
  have hpower : (2 : ℚ) ^ ((m.log2 : Int) + e) < 2 ^ (1024 : Int) := by
    rw [zpow_add₀ (by norm_num), zpow_natCast]
    calc (2 : ℚ) ^ m.log2 * 2 ^ e ≤ m * 2 ^ e := by
          refine mul_le_mul_of_nonneg_right ?_ (by positivity)
          exact_mod_cast hself
      _ < room := hroom
      _ ≤ 2 ^ (53 : Int) * 2 ^ (971 : Int) := by
          refine mul_le_mul_of_nonneg_right ?_ (by positivity)
          norm_num
      _ = 2 ^ (1024 : Int) := by rw [← zpow_add₀ (by norm_num)]; rfl
  exact (zpow_lt_zpow_iff_right₀ (by norm_num)).1 hpower

/-- Truncated to the last exponent, its significand is not the last one. -/
theorem truncated_of_lt_room {m : Nat} {e : Int} (he : e ≤ 971) (hroom : (m : ℚ) * 2 ^ e < room) :
    m / 2 ^ (971 - e).toNat + 1 < 2 ^ 53 := by
  have hsplit : (2 : ℚ) ^ (971 : Int) = 2 ^ (971 - e).toNat * 2 ^ e := by
    rw [← zpow_natCast, ← zpow_add₀ (by norm_num)]
    congr 1
    omega
  have htruncated : ((m / 2 ^ (971 - e).toNat : Nat) : ℚ) * 2 ^ (971 - e).toNat ≤ m := by
    exact_mod_cast Nat.div_mul_le_self m _
  have hscaled : ((m / 2 ^ (971 - e).toNat : Nat) : ℚ) * 2 ^ (971 : Int) <
      (2 ^ 53 - 1) * 2 ^ (971 : Int) := by
    calc ((m / 2 ^ (971 - e).toNat : Nat) : ℚ) * 2 ^ (971 : Int)
        = (m / 2 ^ (971 - e).toNat : Nat) * 2 ^ (971 - e).toNat * 2 ^ e := by
          rw [hsplit, mul_assoc]
      _ ≤ m * 2 ^ e := mul_le_mul_of_nonneg_right htruncated (by positivity)
      _ < room := hroom
      _ = (2 ^ 53 - 1) * 2 ^ (971 : Int) := rfl
  have hkept : ((m / 2 ^ (971 - e).toNat : Nat) : ℚ) < 2 ^ 53 - 1 :=
    lt_of_mul_lt_mul_right hscaled (by positivity)
  have hnext : ((m / 2 ^ (971 - e).toNat : Nat) : ℚ) + 1 < 2 ^ 53 := lt_sub_iff_add_lt.1 hkept
  exact_mod_cast hnext

/-- A product of significands with all their bits is rounded to a number in range when it leaves
room. -/
theorem double_product {s : Sign} {a b : Nat} {i j : Int} (ha : 2 ^ 52 ≤ a) (hb : 2 ^ 52 ≤ b)
    (hroom : (a : ℚ) * 2 ^ i * (b * 2 ^ j) < room) :
    Double (roundWithAccuracy Format.binary64 s (a * b) (i + j) .exact) := by
  have hfull : 2 ^ 104 ≤ a * b := by
    rw [show (2 : Nat) ^ 104 = 2 ^ 52 * 2 ^ 52 from rfl]
    exact Nat.mul_le_mul ha hb
  have hpos : 0 < a * b := Nat.lt_of_lt_of_le (by decide) hfull
  have hlog : 104 ≤ (a * b).log2 := (Nat.le_log2 hpos.ne').2 hfull
  have hproduct : ((a * b : Nat) : ℚ) * 2 ^ (i + j) < room := by
    rw [zpow_add₀ (by norm_num : (2 : ℚ) ≠ 0)]
    push_cast
    calc (a : ℚ) * b * (2 ^ i * 2 ^ j) = a * 2 ^ i * (b * 2 ^ j) := by ring
      _ < room := hroom
  generalize a * b = m at *
  generalize i + j = e at *
  have hexponent := log2_add_lt_of_lt_room hpos hproduct
  have he : e ≤ roundingExponent m e := by
    unfold roundingExponent
    omega
  refine double_round s .exact (.inl hpos) he ?_
  rcases Int.lt_or_le (roundingExponent m e) 971 with hlt | hge
  · exact .inl hlt
  -- At the last exponent rounding may add one to the significand.
  have hlast : roundingExponent m e = 971 := by
    unfold roundingExponent at hge ⊢
    omega
  refine .inr ⟨hlast, ?_⟩
  rw [hlast] at he ⊢
  exact truncated_of_lt_room he hproduct

/-- A product of two approximations is finite if their fractions leave room. -/
theorem isFinite_mul {x y : Float} {q r : ℚ} (hx : Approximates x q) (hy : Approximates y r)
    (hq : 0 ≤ q) (hroom : q * (1 + unit) * (r * (1 + unit)) < room) : IsFinite (x * y) := by
  obtain ⟨a, i, hapos, hxa, ha, -, -, haq⟩ := hx
  obtain ⟨b, j, hbpos, hyb, hb, -, -, hbr⟩ := hy
  have hunit : 0 ≤ 1 + unit := by norm_num [unit]
  have hdouble := double_product (s := .positive * .positive) ha hb (i := i) (j := j) (by
    calc (a : ℚ) * 2 ^ i * (b * 2 ^ j) ≤ q * (1 + unit) * (r * (1 + unit)) :=
          mul_le_mul haq hbr (by positivity) (mul_nonneg hq hunit)
      _ < room := hroom)
  have hpack : (x * y).toModel = .pack (UnpackedFloat.mul Format.binary64 x.toModel.unpack
      y.toModel.unpack) := rfl
  rw [hxa, hyb] at hpack
  show (x * y).toModel.isFinite = true
  rw [hpack]
  exact isFinite_pack hdouble

/-! ### Quotients -/

/-- The exponent of a quotient before rounding. -/
def quotientExponent (a : Nat) (i : Int) (b : Nat) (j : Int) : Int :=
  min (i - j) (max (a.log2 + i - (b.log2 + j) - 53) (-1074))

/-- The significand of a quotient before rounding. -/
def quotient (a : Nat) (i : Int) (b : Nat) (j : Int) : Nat :=
  a * 2 ^ (i - j - quotientExponent a i b j).toNat / b

theorem divCore_eq (a : Nat) (i : Int) (b : Nat) (j : Int) :
    ∃ acc, divCore Format.binary64 a i b j =
      (quotient a i b j, quotientExponent a i b j, acc) := by
  have htarget : min (i - j) (Format.binary64.targetExponent (totalExponent a i -
      totalExponent b j)) = quotientExponent a i b j := by
    show min (i - j) (max (a.log2 + 1 + i - (b.log2 + 1 + j) - 53) (-1074)) = _
    unfold quotientExponent
    omega
  unfold divCore
  simp only [htarget, Nat.shiftLeft_eq]
  exact ⟨_, rfl⟩

variable {a b : Nat} {i j : Int}

theorem le_quotient (ha : 0 < a) (hb : 0 < b) (h : -1074 < quotientExponent a i b j) :
    2 ^ 52 ≤ quotient a i b j := by
  refine (Nat.le_div_iff_mul_le hb).2 ?_
  have hshift : 52 + (b.log2 + 1) ≤ a.log2 + (i - j - quotientExponent a i b j).toNat := by
    unfold quotientExponent at h ⊢
    omega
  calc 2 ^ 52 * b ≤ 2 ^ 52 * 2 ^ (b.log2 + 1) :=
        Nat.mul_le_mul_left _ (Nat.le_of_lt Nat.lt_log2_self)
    _ = 2 ^ (52 + (b.log2 + 1)) := (Nat.pow_add 2 _ _).symm
    _ ≤ 2 ^ (a.log2 + (i - j - quotientExponent a i b j).toNat) :=
        Nat.pow_le_pow_right (by decide) hshift
    _ = 2 ^ a.log2 * 2 ^ (i - j - quotientExponent a i b j).toNat := Nat.pow_add 2 _ _
    _ ≤ a * 2 ^ (i - j - quotientExponent a i b j).toNat :=
        Nat.mul_le_mul_right _ (Nat.log2_self_le ha.ne')

theorem log2_quotient_le (hb : 0 < b) : (quotient a i b j).log2 ≤
    a.log2 + (i - j - quotientExponent a i b j).toNat - b.log2 := by
  rcases Nat.eq_zero_or_pos (quotient a i b j) with hzero | hpos
  · rw [hzero]
    exact Nat.zero_le _
  have hlt : (quotient a i b j).log2 + b.log2 <
      a.log2 + 1 + (i - j - quotientExponent a i b j).toNat := by
    refine (Nat.pow_lt_pow_iff_right (a := 2) (by decide)).1 ?_
    calc 2 ^ ((quotient a i b j).log2 + b.log2)
        = 2 ^ (quotient a i b j).log2 * 2 ^ b.log2 := Nat.pow_add 2 _ _
      _ ≤ quotient a i b j * b :=
          Nat.mul_le_mul (Nat.log2_self_le hpos.ne') (Nat.log2_self_le hb.ne')
      _ ≤ a * 2 ^ (i - j - quotientExponent a i b j).toNat := Nat.div_mul_le_self _ _
      _ < 2 ^ (a.log2 + 1) * 2 ^ (i - j - quotientExponent a i b j).toNat :=
          Nat.mul_lt_mul_of_pos_right Nat.lt_log2_self (Nat.two_pow_pos _)
      _ = 2 ^ (a.log2 + 1 + (i - j - quotientExponent a i b j).toNat) := (Nat.pow_add 2 _ _).symm
  omega

/-- A number in range divided by one that is two at least is in range. -/
theorem double_quotient {s : Sign} {acc : Accuracy} (ha : 0 < a) (ha' : a < 2 ^ 53) (hi : i ≤ 971)
    (hb : 0 < b) (hj : 1 ≤ b.log2 + j) :
    Double (roundWithAccuracy Format.binary64 s (quotient a i b j) (quotientExponent a i b j)
      acc) := by
  have hlog := log2_lt_of_lt ha' (by decide)
  have hhigh := log2_quotient_le (a := a) (i := i) (j := j) hb
  have hlow := le_quotient (i := i) (j := j) ha hb
  have hexponent : quotientExponent a i b j ≤ i - j := Int.min_le_left _ _
  have htop : quotientExponent a i b j ≤ max (a.log2 + i - (b.log2 + j) - 53) (-1074) :=
    Int.min_le_right _ _
  rcases Int.lt_or_le (-1074) (quotientExponent a i b j) with hlarge | hsmall
  · have hfull := hlow hlarge
    have hpos : 0 < quotient a i b j := Nat.lt_of_lt_of_le (by decide) hfull
    have hlog2 : 52 ≤ (quotient a i b j).log2 := (Nat.le_log2 hpos.ne').2 hfull
    refine double_round s acc (.inl hpos) ?_ (.inl ?_)
    · unfold roundingExponent
      omega
    · unfold roundingExponent
      omega
  · refine double_round s acc ?_ ?_ (.inl ?_)
    · rcases Nat.eq_zero_or_pos (quotient a i b j) with hzero | hpos
      · right
        rw [hzero, roundingExponent]
        simp only [Nat.log2_zero]
        omega
      · exact .inl hpos
    · unfold roundingExponent
      omega
    · unfold roundingExponent
      omega

/-- A finite number divided by a power of ten is finite. -/
theorem isFinite_div {x : Float} (hx : IsFinite x) {k : Nat} (hpos : 0 < k)
    (hk : k ≤ Binary64.maxPowerOfTen) : IsFinite (x / Binary64.powerOfTen k) := by
  obtain ⟨b, j, hb, hunpack, hlow, hhigh, -, hj, -⟩ := powerOfTen_unpack hk
  have hlog := log2_of_full hlow hhigh
  have hdouble := hx.double
  have hpack : (x / Binary64.powerOfTen k).toModel = .pack (UnpackedFloat.div Format.binary64
      x.toModel.unpack (Binary64.powerOfTen k).toModel.unpack) := rfl
  rw [hunpack] at hpack
  show (x / Binary64.powerOfTen k).toModel.isFinite = true
  rw [hpack]
  refine isFinite_pack ?_
  cases hunpackx : x.toModel.unpack with
  | infinity s => exact (hunpackx ▸ hdouble : Double (.infinity s)).elim
  | notANumber => exact (hunpackx ▸ hdouble : Double .notANumber).elim
  | zero s => trivial
  | finite s a i ha =>
    rw [hunpackx] at hdouble
    obtain ⟨ha', -, hi, -⟩ := hdouble
    obtain ⟨acc, hcore⟩ := divCore_eq a i b j
    show Double (roundWithAccuracy Format.binary64 (s / .positive)
      (divCore Format.binary64 a i b j).1 (divCore Format.binary64 a i b j).2.1
      (divCore Format.binary64 a i b j).2.2)
    rw [hcore]
    exact double_quotient ha ha' hi hb (by have := hj hpos; omega)

/-- Dividing by a power of ten step by step stays finite. -/
theorem isFinite_divideByPower {x : Float} (hx : IsFinite x) {k : Nat} (hpos : 0 < k) :
    IsFinite (Binary64.divideByPower x k) := by
  induction x, k using Binary64.divideByPower.induct with
  | case1 x k hk =>
    rw [Binary64.divideByPower, if_pos hk]
    exact isFinite_div hx hpos hk
  | case2 x k hk hzero =>
    rw [Binary64.divideByPower, if_neg hk, if_pos hzero]
    exact hx
  | case3 x k hk hzero ih =>
    rw [Binary64.divideByPower, if_neg hk, if_neg hzero]
    exact ih (isFinite_div hx (by decide) (Nat.le_refl _)) (by omega)

end RecordCache.Rounding
