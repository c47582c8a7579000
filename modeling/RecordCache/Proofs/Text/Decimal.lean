import RecordCache.Text.Decimal

/-!
# Reading digits back

Decimal and hexadecimal texts as lists of digit values.

* `Text.digits` lists the values of the decimal digits of a number, and `Text.spell` writes such a
  list;
* `Text.ofDigits_digits`, `Text.spanDigits_spell`: the digits of a number evaluate to it, and
  digits are read up to the first character that is none;
* `Text.hexValue?_hexDigit`: the same for a single hexadecimal digit.
-/

namespace RecordCache.Text

/-- The values of the decimal digits of a number, most significant first. -/
def digits (n : Nat) : List Nat :=
  if n < 10 then [n] else digits (n / 10) ++ [n % 10]

/-- The characters of digit values. -/
def spell (ds : List Nat) : List Char := ds.map digitChar

/-- No decimal digit stands at the front of the text. -/
def NoDigit (text : List Char) : Prop := ∀ c ∈ text.head?, digitValue? c = none

theorem noDigit_cons {c : Char} {text : List Char} (h : digitValue? c = none) :
    NoDigit (c :: text) := by
  rintro d hd
  cases hd
  exact h

theorem decimal_eq_spell (n : Nat) : decimal n = spell (digits n) := by
  induction n using digits.induct with
  | case1 n h =>
    rw [decimal, digits, if_pos h, if_pos h]
    rfl
  | case2 n h ih =>
    rw [decimal, digits, if_neg h, if_neg h, ih, spell, spell, List.map_append]
    rfl

theorem digits_lt_ten (n : Nat) : ∀ d ∈ digits n, d < 10 := by
  induction n using digits.induct with
  | case1 n h =>
    rw [digits, if_pos h]
    simpa using h
  | case2 n h ih =>
    rw [digits, if_neg h]
    intro d hd
    rcases List.mem_append.1 hd with hd | hd
    · exact ih d hd
    · rw [List.mem_singleton.1 hd]
      exact Nat.mod_lt n (by omega)

theorem digits_ne_nil (n : Nat) : digits n ≠ [] := by
  rw [digits]
  split <;> simp

theorem ofDigits_append (ds es : List Nat) :
    ofDigits (ds ++ es) = es.foldl (fun n d => 10 * n + d) (ofDigits ds) :=
  List.foldl_append

theorem ofDigits_digits (n : Nat) : ofDigits (digits n) = n := by
  induction n using digits.induct with
  | case1 n h =>
    rw [digits, if_pos h]
    simp [ofDigits]
  | case2 n h ih =>
    rw [digits, if_neg h, ofDigits_append, ih]
    exact Nat.div_add_mod n 10

/-- The first digit is zero for zero only. -/
theorem digits_head_ne_zero {n : Nat} (h : 0 < n) : ∃ d ds, digits n = d :: ds ∧ 0 < d := by
  induction n using digits.induct with
  | case1 n hn =>
    refine ⟨n, [], ?_, h⟩
    rw [digits, if_pos hn]
  | case2 n hn ih =>
    obtain ⟨d, ds, hds, hd⟩ := ih (by omega)
    refine ⟨d, ds ++ [n % 10], ?_, hd⟩
    rw [digits, if_neg hn, hds]
    rfl

theorem digits_zero : digits 0 = [0] := by
  rw [digits, if_pos (by omega)]

theorem digitValue?_digitChar : ∀ d < 10, digitValue? (digitChar d) = some d := by decide

/-- Digits are read up to the first character that is none. -/
theorem spanDigits_spell {ds : List Nat} (hds : ∀ d ∈ ds, d < 10) {rest : List Char}
    (hrest : NoDigit rest) : spanDigits (spell ds ++ rest) = (ds, rest) := by
  induction ds with
  | nil =>
    cases rest with
    | nil => rfl
    | cons c rest =>
      show spanDigits (c :: rest) = _
      rw [spanDigits, hrest c rfl]
  | cons d ds ih =>
    obtain ⟨hd, hds⟩ := List.forall_mem_cons.1 hds
    show spanDigits (digitChar d :: (spell ds ++ rest)) = _
    rw [spanDigits, digitValue?_digitChar d hd, ih hds]

theorem hexValue?_hexDigit : ∀ d < 16, hexValue? (hexDigit d) = some d := by decide

end RecordCache.Text
