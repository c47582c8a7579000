import RecordCache.Json.Document
import RecordCache.Json.Printer
import RecordCache.Proofs.Text.Decimal

/-!
# Reading strings back

The literal of a string spells the characters of the string, one unit for each, and no surrogate.

* `StringLiteral.scan_escapeChar`: the spelling of one character is read as that character;
* `StringLiteral.decode_units`: the units of a text spell the text;
* `Document.stringBody_quote`: a quoted string is read back.
-/

namespace RecordCache.Json

namespace StringLiteral

theorem hexUnit?_hexFixed : ∀ n < 32,
    hexUnit? '0' '0' (Text.hexDigit (n / 16)) (Text.hexDigit (n % 16)) = some n := by decide

theorem hexFixed_eq : ∀ n < 32,
    Text.hexFixed 4 n = ['0', '0', Text.hexDigit (n / 16), Text.hexDigit (n % 16)] := by decide

theorem toNat_lt_of_lt_space {c : Char} (h : c < ' ') : c.toNat < 32 := h

/-- Neither a quote nor a backslash, a character is read by the last rule. -/
theorem scan_plain {c : Char} (hquote : c ≠ '"') (hslash : c ≠ '\\') (hspace : ¬c < ' ')
    (rest : List Char) : scan (c :: rest) = (scan rest).map (consUnit c.toNat) := by
  rw [scan.eq_def]
  split
  · rename_i heq
    cases heq
  · rename_i heq
    exact absurd (List.cons.inj heq).1 hquote
  · rename_i heq
    exact absurd (List.cons.inj heq).1 hslash
  · rename_i heq
    exact absurd (List.cons.inj heq).1 hslash
  · rename_i heq
    cases heq
    rw [if_neg (not_or.2 ⟨hspace, hslash⟩)]

/-- The spelling of a character is read as that character. -/
theorem scan_escapeChar (c : Char) (rest : List Char) :
    scan (escapeChar c ++ rest) = (scan rest).map (consUnit c.toNat) := by
  unfold escapeChar
  -- seven characters have spellings of their own
  iterate 7
    split
    · rename_i h
      subst h
      rfl
  split
  · rename_i h
    have hlt := toNat_lt_of_lt_space h
    rw [hexFixed_eq _ hlt]
    simp only [List.cons_append, List.nil_append, scan, hexUnit?_hexFixed _ hlt]
  · rename_i hquote hslash _ _ _ _ _ hspace
    exact scan_plain hquote hslash hspace rest

theorem scan_quoted (text rest : List Char) :
    scan (text.flatMap escapeChar ++ '"' :: rest) = some (text.map Char.toNat, rest) := by
  induction text with
  | nil => rfl
  | cons c text ih =>
    rw [List.flatMap_cons, List.append_assoc, scan_escapeChar, ih]
    rfl

theorem isHigh_toNat (c : Char) : isHigh c.toNat = false := by
  have hvalid : c.toNat < 0xd800 ∨ 0xdfff < c.toNat ∧ c.toNat < 0x110000 := c.valid
  simp only [isHigh, Bool.and_eq_false_iff, decide_eq_false_iff_not]
  omega

theorem isLow_toNat (c : Char) : isLow c.toNat = false := by
  have hvalid : c.toNat < 0xd800 ∨ 0xdfff < c.toNat ∧ c.toNat < 0x110000 := c.valid
  simp only [isLow, Bool.and_eq_false_iff, decide_eq_false_iff_not]
  omega

/-- The units of a text spell the text. -/
theorem decode_units (text : List Char) : decode (text.map Char.toNat) = some text := by
  induction text with
  | nil => rfl
  | cons c text ih =>
    cases text with
    | nil => simp [decode, isHigh_toNat, isLow_toNat, Char.ofNat_toNat]
    | cons d text =>
      rw [List.map_cons] at ih
      simp only [List.map_cons, decode, isHigh_toNat, isLow_toNat, Bool.false_eq_true, if_false,
        ih, Option.map_some, Char.ofNat_toNat]

end StringLiteral

/-- A quoted string is read back. -/
theorem Document.stringBody_quote (text : String) (rest : List Char) :
    stringBody (text.toList.flatMap escapeChar ++ '"' :: rest) = some (some text, rest) := by
  rw [stringBody, StringLiteral.scan_quoted]
  simp [StringLiteral.decode_units]

end RecordCache.Json
