import RecordCache.Json.Printer
import RecordCache.Proofs.Binary64.Scaled
import RecordCache.Proofs.Json.Numeral

/-!
# Reading floating-point numbers back

The literal of a finite number is read, and what is read is finite. It need not be the number
itself, since a reader rounds more than once.

* `Numeral.ofScaled` is the literal of a significand times a power of ten;
* `Binary64.literal` is that of a number, and `Binary64.text_literal` says that it is what is
  printed;
* `Binary64.reread` is the number that a reader makes of the literal;
* `Binary64.number?_literal`, `isFinite_reread`: for a finite number there is one, a finite one.
-/

namespace RecordCache

namespace Text

theorem ofDigits_append_eq (ds es : List Nat) :
    ofDigits (ds ++ es) = ofDigits ds * 10 ^ es.length + ofDigits es := by
  have hfold : ∀ (es : List Nat) (n : Nat),
      es.foldl (fun n d => 10 * n + d) n = n * 10 ^ es.length + ofDigits es := by
    intro es
    induction es with
    | nil => intro n; simp [ofDigits]
    | cons e es ih =>
      intro n
      have hcons : ofDigits (e :: es) = es.foldl (fun n d => 10 * n + d) (10 * 0 + e) := rfl
      rw [List.foldl_cons, ih, hcons, ih (10 * 0 + e), List.length_cons, Nat.pow_succ]
      ring
  rw [ofDigits_append, hfold]

theorem ofDigits_replicate (k : Nat) : ofDigits (List.replicate k 0) = 0 := by
  induction k with
  | zero => rfl
  | succ k ih =>
    show ofDigits ([0] ++ List.replicate k 0) = 0
    rw [ofDigits_append_eq, ih]
    simp [ofDigits]

theorem lt_pow_length_digits (n : Nat) : n < 10 ^ (digits n).length := by
  induction n using digits.induct with
  | case1 n h =>
    rw [digits, if_pos h]
    simpa using h
  | case2 n h ih =>
    rw [digits, if_neg h, List.length_append, Nat.pow_add, List.length_singleton]
    omega

end Text

namespace Json.Numeral

/-- The literal of a significand times a power of ten. -/
def ofScaled (negative : Bool) (n : Nat) (e : Int) : Numeral :=
  let ds := Text.digits n
  let first : Int := ds.length - 1 + e
  if -5 ≤ first ∧ first ≤ 15 then
    if 0 ≤ e then ⟨negative, ds ++ List.replicate e.toNat 0, some [0], none⟩
    else if 0 ≤ first then
      ⟨negative, ds.take (first.toNat + 1), some (ds.drop (first.toNat + 1)), none⟩
    else ⟨negative, [0], some (List.replicate (-first - 1).toNat 0 ++ ds), none⟩
  else
    ⟨negative, ds.take 1, if (ds.drop 1).isEmpty then none else some (ds.drop 1),
      some (first < 0, Text.digits first.natAbs)⟩

/-- It is the text that the layout of JSON gives. -/
theorem text_ofScaled (negative : Bool) (n : Nat) (e : Int) :
    (ofScaled negative n e).text = signText negative ++ numbers.write n e := by
  unfold ofScaled Binary64.Layout.write
  dsimp only
  rw [Text.decimal_eq_spell, Text.spell, List.length_map]
  by_cases hpositional : -5 ≤ ((Text.digits n).length : Int) - 1 + e ∧
      ((Text.digits n).length : Int) - 1 + e ≤ 15
  · have hlayout : numbers.minPositional ≤ ((Text.digits n).length : Int) - 1 + e ∧
        ((Text.digits n).length : Int) - 1 + e ≤ numbers.maxPositional := hpositional
    rw [if_pos hpositional, if_pos hlayout]
    split
    · simp [text, fractionText, exponentText, Text.spell, Binary64.zeros, Text.digitChar, numbers]
    split
    · simp [text, fractionText, exponentText, Text.spell]
    · simp [text, fractionText, exponentText, Text.spell, Binary64.zeros, Text.digitChar]
  · have hlayout : ¬(numbers.minPositional ≤ ((Text.digits n).length : Int) - 1 + e ∧
        ((Text.digits n).length : Int) - 1 + e ≤ numbers.maxPositional) := hpositional
    rw [if_neg hpositional, if_neg hlayout]
    have hexponent : exponentText (some (decide ((Text.digits n).length - 1 + e < 0),
        Text.digits ((Text.digits n).length - 1 + e).natAbs)) =
        numbers.mark ++ ((if 0 ≤ (Text.digits n).length - 1 + e then numbers.plus else []) ++
          Text.decimalInt ((Text.digits n).length - 1 + e)) := by
      unfold exponentText Text.decimalInt numbers
      rw [Text.decimal_eq_spell]
      by_cases hneg : ((Text.digits n).length : Int) - 1 + e < 0
      · simp [hneg, Int.not_le.2 hneg]
      · simp [hneg, Int.not_lt.1 hneg]
    have hfraction : fractionText (if (List.drop 1 (Text.digits n)).isEmpty then none
        else some (List.drop 1 (Text.digits n))) =
        if (List.drop 1 (List.map Text.digitChar (Text.digits n))).isEmpty then []
        else '.' :: List.drop 1 (List.map Text.digitChar (Text.digits n)) := by
      rw [← List.map_drop, List.isEmpty_map]
      split <;> rfl
    simp only [text, hexponent, hfraction, Text.spell, List.map_take, List.append_assoc]

theorem digits_append_replicate (n k : Nat) :
    Digits (Text.digits n ++ List.replicate k 0) := by
  refine ⟨List.append_ne_nil_of_left_ne_nil (Text.digits_ne_nil n) _, ?_⟩
  intro d hd
  rcases List.mem_append.1 hd with hd | hd
  · exact Text.digits_lt_ten n d hd
  · rw [List.eq_of_mem_replicate hd]
    decide

theorem digits_replicate_append (n k : Nat) :
    Digits (List.replicate k 0 ++ Text.digits n) := by
  refine ⟨List.append_ne_nil_of_right_ne_nil _ (Text.digits_ne_nil n), ?_⟩
  intro d hd
  rcases List.mem_append.1 hd with hd | hd
  · rw [List.eq_of_mem_replicate hd]
    decide
  · exact Text.digits_lt_ten n d hd

theorem digits_take {n k : Nat} (hk : 0 < k) : Digits ((Text.digits n).take k) := by
  refine ⟨?_, fun d hd => Text.digits_lt_ten n d (List.mem_of_mem_take hd)⟩
  rw [ne_eq, List.take_eq_nil_iff]
  rintro (h | h)
  · omega
  · exact Text.digits_ne_nil n h

theorem digits_drop {n k : Nat} (hk : k < (Text.digits n).length) :
    Digits ((Text.digits n).drop k) := by
  refine ⟨?_, fun d hd => Text.digits_lt_ten n d (List.mem_of_mem_drop hd)⟩
  rw [ne_eq, List.drop_eq_nil_iff]
  omega

/-- Digits that start like those of a positive number do not start with zero. -/
theorem leading_of_prefix {n : Nat} (hn : 0 < n) {ds rest : List Nat}
    (h : ds ++ rest = Text.digits n) (hds : ds ≠ []) : ∀ es, ds = 0 :: es → es = [] := by
  rintro es rfl
  obtain ⟨d, fs, hdigits, hd⟩ := Text.digits_head_ne_zero hn
  rw [hdigits] at h
  exact absurd (List.cons.inj h).1.symm (by omega)

theorem wellFormed_ofScaled (negative : Bool) {n : Nat} (hn : 0 < n) (e : Int) :
    (ofScaled negative n e).WellFormed := by
  obtain ⟨d, fs, hdigits, hd⟩ := Text.digits_head_ne_zero hn
  have hlength : 0 < (Text.digits n).length := List.length_pos_of_ne_nil (Text.digits_ne_nil n)
  unfold ofScaled
  dsimp only
  split
  · split
    · refine ⟨digits_append_replicate n _, ?_, ?_, nofun⟩
      · intro es h
        rw [hdigits] at h
        exact absurd (List.cons.inj h).1 (by omega)
      · rintro ds hds
        cases hds
        exact ⟨List.cons_ne_nil _ _, by simp⟩
    split
    · refine ⟨digits_take (Nat.succ_pos _), ?_, ?_, nofun⟩
      · exact leading_of_prefix hn (List.take_append_drop _ _) (digits_take (Nat.succ_pos _)).1
      · rintro ds hds
        cases hds
        exact digits_drop (by omega)
    · refine ⟨⟨List.cons_ne_nil _ _, by simp⟩, fun es h => (List.cons.inj h).2.symm, ?_, nofun⟩
      rintro ds hds
      cases hds
      exact digits_replicate_append n _
  · refine ⟨digits_take Nat.one_pos, ?_, ?_, ?_⟩
    · exact leading_of_prefix hn (List.take_append_drop _ _) (digits_take Nat.one_pos).1
    · intro ds hds
      split at hds
      · cases hds
      · rename_i hrest
        cases hds
        refine ⟨fun hnil => hrest (List.isEmpty_iff.2 hnil), ?_⟩
        exact fun d hd => Text.digits_lt_ten n d (List.mem_of_mem_drop hd)
    · rintro e he
      cases he
      exact digits_digits _

/-! ### What the literal denotes -/

theorem le_foldl_digits (ds : List Nat) (n : Nat) : n ≤ ds.foldl (fun n d => 10 * n + d) n := by
  induction ds generalizing n with
  | nil => exact Nat.le_refl n
  | cons d ds ih => exact Nat.le_trans (by omega) (ih (10 * n + d))

/-- Digits that fit 64 bits together are all taken. -/
theorem extend_eq {ds : List Nat} {n : Nat}
    (h : ds.foldl (fun n d => 10 * n + d) n < Word.count64) :
    extend n ds = (ds.foldl (fun n d => 10 * n + d) n, []) := by
  induction ds generalizing n with
  | nil => rfl
  | cons d ds ih =>
    rw [extend, if_pos (Nat.lt_of_le_of_lt (le_foldl_digits ds _) h)]
    exact ih h

/-- A literal whose digits fit 64 bits denotes them, scaled by the digits behind the point and by
the exponent. -/
theorem float?_eq {numeral : Numeral}
    (h : Text.ofDigits (numeral.whole ++ numeral.fraction.getD []) < Word.count64) :
    numeral.float? = (Binary64.ofScaled?
      (Text.ofDigits (numeral.whole ++ numeral.fraction.getD []))
      (numeral.exponentValue - (numeral.fraction.getD []).length)).map
        (Binary64.signed numeral.negative) := by
  have happend := Text.ofDigits_append numeral.whole (numeral.fraction.getD [])
  rw [happend] at h
  have hwhole : extend 0 numeral.whole = (Text.ofDigits numeral.whole, []) :=
    extend_eq (Nat.lt_of_le_of_lt (le_foldl_digits _ _) h)
  have hfraction := extend_eq h
  unfold float?
  rw [hwhole]
  dsimp only
  rw [hfraction]
  dsimp only
  rw [happend, List.length_nil, Nat.sub_zero]
  congr 2
  omega

/-- The digits of a number with zeros behind them, up to the one behind the point. -/
theorem ofDigits_shifted (n k : Nat) :
    Text.ofDigits (Text.digits n ++ List.replicate k 0 ++ [0]) = n * 10 ^ k * 10 := by
  rw [Text.ofDigits_append_eq, Text.ofDigits_append_eq, Text.ofDigits_digits,
    Text.ofDigits_replicate, List.length_replicate]
  rfl

theorem shifted_lt {n k digits : Nat} (h : (Text.digits n).length + k ≤ digits) :
    n * 10 ^ k < 10 ^ digits := by
  calc n * 10 ^ k < 10 ^ (Text.digits n).length * 10 ^ k :=
        Nat.mul_lt_mul_of_pos_right (Text.lt_pow_length_digits n) (Nat.pow_pos (by decide))
    _ = 10 ^ ((Text.digits n).length + k) := (Nat.pow_add 10 _ _).symm
    _ ≤ 10 ^ digits := Nat.pow_le_pow_right (by decide) h

/-- A point between the digits. -/
theorem ofDigits_pointed (n k : Nat) :
    Text.ofDigits ((Text.digits n).take k ++ (Text.digits n).drop k) = n := by
  rw [List.take_append_drop, Text.ofDigits_digits]

/-- Zeros between the point and the digits. -/
theorem ofDigits_padded (n k : Nat) :
    Text.ofDigits ([0] ++ (List.replicate k 0 ++ Text.digits n)) = n := by
  rw [Text.ofDigits_append_eq, Text.ofDigits_append_eq, Text.ofDigits_replicate,
    Text.ofDigits_digits]
  simp [Text.ofDigits]

/-- The literal denotes the significand with its power of ten, or some significand over a power of
ten. -/
theorem float?_ofScaled (negative : Bool) {n : Nat} (hn : n ≤ 10 ^ 18) (e : Int) :
    ∃ m k, (ofScaled negative n e).float? =
        (Binary64.ofScaled? m k).map (Binary64.signed negative) ∧ (k < 0 ∨ m = n ∧ k = e) := by
  have hfit : n < Word.count64 := Nat.lt_of_le_of_lt hn (by decide)
  have hlength : 0 < (Text.digits n).length := List.length_pos_of_ne_nil (Text.digits_ne_nil n)
  unfold ofScaled
  dsimp only
  split
  · rename_i hpositional
    split
    · rename_i he
      -- Up to 16 digits stand in front of the point.
      have hbound : n * 10 ^ e.toNat < 10 ^ 16 := shifted_lt (by omega)
      refine ⟨_, _, float?_eq ?_, .inl ?_⟩
      · show Text.ofDigits (Text.digits n ++ List.replicate e.toNat 0 ++ [0]) < _
        rw [ofDigits_shifted, Word.count64]
        omega
      · show (0 : Int) - 1 < 0
        omega
    split
    · refine ⟨_, _, float?_eq ?_, .inl ?_⟩
      · exact (ofDigits_pointed n _).trans_lt hfit
      · show (0 : Int) - (((Text.digits n).drop _).length : Int) < 0
        rw [List.length_drop]
        omega
    · refine ⟨_, _, float?_eq ?_, .inl ?_⟩
      · exact (ofDigits_padded n _).trans_lt hfit
      · show (0 : Int) - ((List.replicate _ 0 ++ Text.digits n).length : Int) < 0
        rw [List.length_append]
        omega
  · -- The exponent makes up for the digits behind the point, so that nothing is lost.
    have hgetD : (if ((Text.digits n).drop 1).isEmpty then none
        else some ((Text.digits n).drop 1)).getD [] = (Text.digits n).drop 1 := by
      split
      · rename_i h
        exact (List.isEmpty_iff.1 h).symm
      · rfl
    refine ⟨_, _, float?_eq ?_, .inr ⟨?_, ?_⟩⟩
    · dsimp only
      rw [hgetD, ofDigits_pointed]
      exact hfit
    · dsimp only
      rw [hgetD, ofDigits_pointed]
    · dsimp only [exponentValue]
      rw [hgetD, List.length_drop, Text.ofDigits_digits]
      split
      · rename_i hneg
        have := of_decide_eq_true hneg
        omega
      · rename_i hneg
        have := of_decide_eq_false (Bool.eq_false_iff.2 hneg)
        omega

theorem integer?_ofScaled (negative : Bool) (n : Nat) (e : Int) :
    (ofScaled negative n e).integer? = none := by
  have hparts : ((ofScaled negative n e).fraction.isSome ||
      (ofScaled negative n e).exponent.isSome) = true := by
    unfold ofScaled
    dsimp only
    split
    · split
      · rfl
      split <;> rfl
    · exact Bool.or_true _
  rw [integer?, if_pos hparts]

end Json.Numeral

namespace Binary64

/-- The literal of a number. -/
def literal (x : Binary64) : Json.Numeral :=
  if x.isZero then ⟨x.isNegative, [0], some [0], none⟩
  else .ofScaled x.isNegative x.shortest.1 x.shortest.2

theorem text_literal (x : Binary64) : x.literal.text = Json.numbers.text x := by
  unfold literal Layout.text
  dsimp only
  split
  · cases x.isNegative <;> rfl
  · exact Json.Numeral.text_ofScaled _ _ _

theorem wellFormed_literal {x : Binary64} (h : x.isFinite = true) : x.literal.WellFormed := by
  unfold literal
  split
  · refine ⟨⟨List.cons_ne_nil _ _, by simp⟩, fun es h => (List.cons.inj h).2.symm, ?_, nofun⟩
    rintro ds hds
    cases hds
    exact ⟨List.cons_ne_nil _ _, by simp⟩
  · rename_i hzero
    exact Json.Numeral.wellFormed_ofScaled _ (shortest_near h (Bool.eq_false_iff.2 hzero)).1 _

/-- The number that a reader makes of the literal. -/
def reread (x : Binary64) : Binary64 := x.literal.float?.getD x

theorem float?_literal {x : Binary64} (h : x.isFinite = true) :
    x.literal.float? = some x.reread ∧ x.reread.isFinite = true := by
  obtain ⟨m, k, hfloat, hgiven⟩ : ∃ m k, x.literal.float? =
      (ofScaled? m k).map (signed x.isNegative) ∧ (ofScaled? m k).isSome = true := by
    unfold literal
    split
    · refine ⟨_, _, Json.Numeral.float?_eq ?_, rfl⟩
      show Text.ofDigits [0, 0] < _
      decide
    · rename_i hzero
      have hnonzero : x.isZero = false := Bool.eq_false_iff.2 hzero
      obtain ⟨-, hle, -⟩ := shortest_near h hnonzero
      obtain ⟨m, k, hfloat, hscale⟩ :=
        Json.Numeral.float?_ofScaled x.isNegative hle x.shortest.2
      refine ⟨m, k, hfloat, ?_⟩
      rcases hscale with hneg | ⟨rfl, rfl⟩
      · exact ofScaled?_negative m hneg
      · exact ofScaled?_shortest h hnonzero
  obtain ⟨y, hy⟩ := Option.isSome_iff_exists.1 hgiven
  rw [hy, Option.map_some] at hfloat
  have hreread : x.reread = signed x.isNegative y := by
    rw [reread, hfloat]
    rfl
  refine ⟨by rw [hfloat, hreread], ?_⟩
  rw [hreread, isFinite_signed]
  exact isFinite_ofScaled? hy

/-- What is read from the literal of a finite number is finite. -/
theorem isFinite_reread {x : Binary64} (h : x.isFinite = true) : x.reread.isFinite = true :=
  (float?_literal h).2

/-- The literal of a finite number denotes a number. -/
theorem number?_literal {x : Binary64} (h : x.isFinite = true) :
    x.literal.number? = some (.float x.reread) := by
  have hinteger : x.literal.integer? = none := by
    unfold literal
    split
    · rfl
    · exact Json.Numeral.integer?_ofScaled _ _ _
  rw [Json.Numeral.number?, hinteger, (float?_literal h).1]
  rfl

end Binary64
end RecordCache
