import RecordCache.Proofs.Binary64.Rounding

/-!
# Packing double-precision numbers

A packed number is its sign, its exponent and the significand without the leading bit.

* `ofFields` is what these fields stand for, and `unpack_eq` unpacks by them;
* `unpack_pack`: packing loses nothing of a number in range;
* `double_unpack`: a finite packed number unpacks to one in range;
* `isFinite_or_isInf_pack`: packing anything but a NaN gives no NaN;
* `isFinite_eq_bits`: the bits of the finite numbers.
-/

namespace RecordCache.Rounding

open Float.Model Float.Model.UnpackedFloat

theorem unpackSign_packComponents (s : Sign) (exponent : BitVec 11) (mantissa : BitVec 52) :
    Sign.ofBitVec (unpackSign (packComponents Format.binary64 s exponent mantissa)) = s := by
  have hsign : (s.toBitVec ++ exponent ++ mantissa).extractLsb 63 63 = s.toBitVec := by
    ext i hi
    have hzero : i = 0 := by omega
    subst hzero
    rw [BitVec.extractLsb, BitVec.getElem_extractLsb', BitVec.getLsbD_append, if_neg (by omega),
      BitVec.getLsbD_append, if_neg (by omega)]
    rfl
  show Sign.ofBitVec ((s.toBitVec ++ exponent ++ mantissa).extractLsb 63 63) = s
  rw [hsign]
  cases s <;> rfl

theorem toNat_one_append (mantissa : BitVec 52) :
    (1#1 ++ mantissa).toNat = 2 ^ 52 + mantissa.toNat := by
  have h := Nat.shiftLeft_add_eq_or_of_lt mantissa.isLt 1
  rw [BitVec.toNat_append]
  exact h.symm

/-- What the fields of a packed number stand for. -/
def ofFields (s : Sign) (exponent : BitVec 11) (mantissa : BitVec 52) : UnpackedFloat :=
  if exponent = -1#11 then (if mantissa = 0#52 then .infinity s else .notANumber)
  else if exponent = 0#11 then
    if h : mantissa = 0#52 then .zero s
    else .finite s mantissa.toNat (-1074) (by simpa [BitVec.toNat_pos, BitVec.pos_iff_ne_zero])
  else .finite s (2 ^ 52 + mantissa.toNat) (exponent.toNat - 1075) (by omega)

theorem finite_congr {s : Sign} {m m' : Nat} {e : Int} (hm : 0 < m) (heq : m = m') :
    UnpackedFloat.finite s m e hm = .finite s m' e (heq ▸ hm) := by
  subst heq
  rfl

theorem unpack_eq (b : BitVec 64) :
    UnpackedFloat.unpack Format.binary64 b =
      ofFields (Sign.ofBitVec (@unpackSign Format.binary64 b)) (@unpackExponent Format.binary64 b)
        (@unpackMantissa Format.binary64 b) := by
  refine ite_congr rfl (fun _ => rfl) fun _ => ite_congr rfl (fun hzero => ?_) fun _ =>
    finite_congr _ (toNat_one_append _)
  rw [hzero]
  rfl

theorem unpack_packComponents (s : Sign) (exponent : BitVec 11) (mantissa : BitVec 52) :
    UnpackedFloat.unpack Format.binary64 (packComponents Format.binary64 s exponent mantissa) =
      ofFields s exponent mantissa := by
  rw [unpack_eq, unpackExponent_packComponents, unpackMantissa_packComponents,
    unpackSign_packComponents]

theorem ofFields_small (s : Sign) (mantissa : BitVec 52) :
    ofFields s 0#11 mantissa = ofParts s mantissa.toNat (-1074) := by
  by_cases h : mantissa = 0#52
  · rw [h]
    rfl
  · rw [ofParts_pos s _ (by simpa [BitVec.toNat_pos, BitVec.pos_iff_ne_zero] using h), ofFields,
      if_neg (by decide), if_pos rfl, dif_neg h]

theorem ofFields_full (s : Sign) {exponent : BitVec 11} (mantissa : BitVec 52)
    (hfull : exponent ≠ -1#11) (hzero : exponent ≠ 0#11) :
    ofFields s exponent mantissa =
      ofParts s (2 ^ 52 + mantissa.toNat) (exponent.toNat - 1075) := by
  rw [ofParts_pos s _ (by omega), ofFields, if_neg hfull, if_neg hzero]

theorem isFinite_ofFields (s : Sign) (exponent : BitVec 11) (mantissa : BitVec 52) :
    (ofFields s exponent mantissa).isFinite = decide (exponent ≠ -1#11) := by
  by_cases hfull : exponent = -1#11
  · rw [decide_eq_false (not_not.2 hfull), ofFields, if_pos hfull]
    split <;> rfl
  · rw [decide_eq_true hfull]
    by_cases hzero : exponent = 0#11
    · rw [hzero, ofFields_small, isFinite_ofParts]
    · rw [ofFields_full s mantissa hfull hzero, isFinite_ofParts]

theorem double_ofFields {s : Sign} {exponent : BitVec 11} {mantissa : BitVec 52}
    (h : exponent ≠ -1#11) : Double (ofFields s exponent mantissa) := by
  have hmantissa := mantissa.isLt
  have hexponent := exponent.isLt
  have hfull : exponent.toNat ≠ 2047 := fun heq => h (BitVec.eq_of_toNat_eq heq)
  by_cases hzero : exponent = 0#11
  · rw [hzero, ofFields_small]
    exact double_ofParts (Nat.lt_trans hmantissa (by decide)) (by decide) (by decide) (.inr rfl)
  · have hpos : exponent.toNat ≠ 0 := fun heq => hzero (BitVec.eq_of_toNat_eq heq)
    rw [ofFields_full s mantissa h hzero]
    exact double_ofParts (by omega) (by omega) (by omega) (.inl (Nat.le_add_right _ _))

theorem log2_of_full {m : Nat} (hlow : 2 ^ 52 ≤ m) (hhigh : m < 2 ^ 53) : m.log2 = 52 :=
  (Nat.log2_eq_iff (by omega)).2 ⟨hlow, hhigh⟩

theorem toNat_ofNat_exponent {n : Nat} (h : n < 2 ^ 11) : (BitVec.ofNat 11 n).toNat = n := by
  rw [BitVec.toNat_ofNat, Nat.mod_eq_of_lt h]

theorem ofNat_exponent_ne {n k : Nat} (hn : n < 2 ^ 11) (hk : k < 2 ^ 11) (h : n ≠ k) :
    BitVec.ofNat 11 n ≠ BitVec.ofNat 11 k := by
  intro heq
  have htoNat := congrArg BitVec.toNat heq
  rw [toNat_ofNat_exponent hn, toNat_ofNat_exponent hk] at htoNat
  exact h htoNat

/-- The exponent as it is packed. -/
def biased (e : Int) : Nat :=
  (e + Format.binary64.exponentBias + Format.binary64.mantissaBitsWithoutImplicit).toNat

theorem biased_eq {e : Int} (h : -1074 ≤ e) : (biased e : Int) = e + 1075 := by
  show ((e + 1023 + 52).toNat : Int) = e + 1075
  omega

theorem pack_finite (s : Sign) {m : Nat} {e : Int} (hm : 0 < m) :
    UnpackedFloat.pack Format.binary64 (.finite s m e hm) =
      if 2 ^ 11 ≤ biased e + 1 then packedInfinity Format.binary64 s
      else if m.log2 + 1 = 53 then
        packComponents Format.binary64 s (BitVec.ofNat 11 (biased e)) (BitVec.ofNat 52 m)
      else packComponents Format.binary64 s 0#11 (BitVec.ofNat 52 m) := rfl

theorem unpack_pack_full {s : Sign} {m : Nat} {e : Int} {hm : 0 < m} (hlow : 2 ^ 52 ≤ m)
    (hhigh : m < 2 ^ 53) (he : -1074 ≤ e) (he' : e ≤ 971) :
    UnpackedFloat.unpack Format.binary64 (UnpackedFloat.pack Format.binary64 (.finite s m e hm)) =
      .finite s m e hm := by
  have hbiased := biased_eq he
  have hrange : ¬2 ^ 11 ≤ biased e + 1 := by omega
  have hfull : BitVec.ofNat 11 (biased e) ≠ -1#11 :=
    ofNat_exponent_ne (by omega) (k := 2047) (by decide) (by omega)
  have hempty : BitVec.ofNat 11 (biased e) ≠ 0#11 :=
    ofNat_exponent_ne (by omega) (by decide) (by omega)
  rw [pack_finite, if_neg hrange, if_pos (by rw [log2_of_full hlow hhigh]), unpack_packComponents,
    ofFields_full s _ hfull hempty, toNat_ofNat_exponent (show biased e < 2 ^ 11 by omega),
    BitVec.toNat_ofNat, ← ofParts_pos s e hm]
  congr 1
  · omega
  · omega

theorem unpack_pack_small {s : Sign} {m : Nat} {hm : 0 < m} (hlt : m < 2 ^ 52) :
    UnpackedFloat.unpack Format.binary64
        (UnpackedFloat.pack Format.binary64 (.finite s m (-1074) hm)) =
      .finite s m (-1074) hm := by
  have hlog := log2_lt_of_lt hlt (by decide)
  rw [pack_finite, if_neg (by decide), if_neg (by omega), unpack_packComponents, ofFields_small,
    BitVec.toNat_ofNat, Nat.mod_eq_of_lt hlt, ofParts_pos s _ hm]

/-- Packing loses nothing of a number in range. -/
theorem unpack_pack {f : UnpackedFloat} (h : Double f) : (Float.Model.pack f).unpack = f := by
  show UnpackedFloat.unpack Format.binary64 (UnpackedFloat.pack Format.binary64 f) = f
  cases f with
  | infinity s => exact h.elim
  | notANumber => exact h.elim
  | zero s =>
    show UnpackedFloat.unpack Format.binary64 (packComponents Format.binary64 s 0#11 0#52) = _
    rw [unpack_packComponents]
    rfl
  | finite s m e hm =>
    obtain ⟨hlt, hlow, hhigh, hnormal⟩ := h
    rcases Nat.lt_or_ge m (2 ^ 52) with hsmall | hfull
    · obtain rfl : e = -1074 := hnormal.resolve_left (by omega)
      exact unpack_pack_small hsmall
    · exact unpack_pack_full hfull hlt hlow hhigh

/-- A packed number is infinite if it is not finite, unless a NaN is packed. -/
theorem isFinite_or_isInf_pack {f : UnpackedFloat} (h : f.isNaN = false) :
    (Float.Model.pack f).isFinite = true ∨ (Float.Model.pack f).isInf = true := by
  show (UnpackedFloat.unpack _ (UnpackedFloat.pack Format.binary64 f)).isFinite = true ∨
    (UnpackedFloat.unpack _ (UnpackedFloat.pack Format.binary64 f)).isInf = true
  have hcomponents : ∀ s exponent mantissa, exponent ≠ -1#11 →
      (UnpackedFloat.unpack Format.binary64
        (packComponents Format.binary64 s exponent mantissa)).isFinite = true := by
    intro s exponent mantissa hexponent
    rw [unpack_packComponents, isFinite_ofFields, decide_eq_true hexponent]
  have hinfinity : ∀ s, (UnpackedFloat.unpack Format.binary64
      (packedInfinity Format.binary64 s)).isInf = true := by
    intro s
    rw [packedInfinity, unpack_packComponents, ofFields, if_pos rfl]
    rfl
  cases f with
  | infinity s => exact .inr (hinfinity s)
  | notANumber => cases h
  | zero s => exact .inl (hcomponents s 0#11 0#52 (by decide))
  | finite s m e hm =>
    rw [pack_finite]
    split
    · exact .inr (hinfinity s)
    rename_i hrange
    split
    · exact .inl (hcomponents s _ _
        (ofNat_exponent_ne (by omega) (k := 2047) (by decide) (by omega)))
    · exact .inl (hcomponents s _ _ (by decide))

/-- What a packed number unpacks to has 53 bits and an exponent in range. -/
theorem double_unpack {x : Float.Model} (h : x.isFinite = true) : Double x.unpack := by
  rw [Float.Model.isFinite, Float.Model.unpack, unpack_eq, isFinite_ofFields] at h
  rw [Float.Model.unpack, unpack_eq]
  exact double_ofFields (of_decide_eq_true h)

/-- The bits of a finite number have an exponent that is not full. -/
theorem isFinite_eq_bits (x : Float.Model) :
    x.isFinite = decide (x.toBits.toNat % 2 ^ 63 < 2047 * 2 ^ 52) := by
  rw [Float.Model.isFinite, Float.Model.unpack, unpack_eq, isFinite_ofFields]
  have hexponent : (@unpackExponent Format.binary64 x.toBits.toBitVec).toNat =
      x.toBits.toNat / 2 ^ 52 % 2 ^ 11 := by
    rw [← Nat.shiftRight_eq_div_pow]
    exact BitVec.extractLsb'_toNat 52 11 x.toBits.toBitVec
  have hiff : @unpackExponent Format.binary64 x.toBits.toBitVec ≠ -1#11 ↔
      x.toBits.toNat % 2 ^ 63 < 2047 * 2 ^ 52 := by
    rw [ne_eq, ← BitVec.toNat_inj, hexponent]
    show ¬x.toBits.toNat / 2 ^ 52 % 2 ^ 11 = 2047 ↔ _
    omega
  exact decide_eq_decide.2 hiff

end RecordCache.Rounding
