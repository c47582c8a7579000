import RecordCache.Json.Numeral
import RecordCache.Proofs.Text.Decimal

/-!
# Reading number literals back

A literal is its parts written one after the other, and reading takes it apart again.

* `Numeral.text` writes the parts; `Numeral.WellFormed` says which parts are those of a literal;
* `Delimited`: nothing that would go on with a literal stands at the front of a text;
* `Numeral.scan_text`: a literal in front of such a text is read as its parts;
* `Numeral.ofInt` is the literal of an integer, and `Numeral.number?_ofInt` what it denotes.
-/

namespace RecordCache.Json

/-- Nothing that would go on with a number literal stands at the front of the text. -/
def Delimited (text : List Char) : Prop :=
  ∀ c ∈ text.head?, Text.digitValue? c = none ∧ c ≠ '.' ∧ c ≠ 'e' ∧ c ≠ 'E'

theorem Delimited.noDigit {text : List Char} (h : Delimited text) : Text.NoDigit text :=
  fun c hc => (h c hc).1

namespace Numeral

/-- The minus sign of a negative literal. -/
def signText (negative : Bool) : List Char := if negative then ['-'] else []

/-- The fraction with its point. -/
def fractionText : Option (List Nat) → List Char
  | some ds => '.' :: Text.spell ds
  | none => []

/-- The exponent with its mark and its sign. -/
def exponentText : Option (Bool × List Nat) → List Char
  | some (negative, ds) => 'e' :: (if negative then '-' else '+') :: Text.spell ds
  | none => []

/-- The literal with these parts. -/
def text (n : Numeral) : List Char :=
  signText n.negative ++
    (Text.spell n.whole ++ (fractionText n.fraction ++ exponentText n.exponent))

/-- The digits of a part: at least one. -/
def Digits (ds : List Nat) : Prop := ds ≠ [] ∧ ∀ d ∈ ds, d < 10

/-- The parts are those of a literal. -/
structure WellFormed (n : Numeral) : Prop where
  whole : Digits n.whole
  /-- No zero stands in front of other whole digits. -/
  leading : ∀ ds, n.whole = 0 :: ds → ds = []
  fraction : ∀ ds ∈ n.fraction, Digits ds
  exponent : ∀ e ∈ n.exponent, Digits e.2

theorem digits_digits (n : Nat) : Digits (Text.digits n) :=
  ⟨Text.digits_ne_nil n, Text.digits_lt_ten n⟩

theorem digitChar_ne : ∀ d < 10,
    Text.digitChar d ≠ '-' ∧ Text.digitChar d ≠ '"' ∧ Text.digitChar d ≠ '[' := by decide

theorem scanWhole_spell {ds : List Nat} (hds : Digits ds) (hzero : ∀ es, ds = 0 :: es → es = [])
    {rest : List Char} (hrest : Text.NoDigit rest) :
    scanWhole (Text.spell ds ++ rest) = some (ds, rest) := by
  rw [scanWhole, Text.spanDigits_spell hds.2 hrest]
  split
  · rename_i heq
    exact absurd (Prod.mk.inj heq).1 hds.1
  · rename_i d es heq
    cases hzero (_ :: _) (Prod.mk.inj heq).1
  · rename_i heq
    cases heq
    rfl

theorem scanFraction_text {fraction : Option (List Nat)} (hfraction : ∀ ds ∈ fraction, Digits ds)
    {rest : List Char} (hrest : Text.NoDigit rest) (hpoint : '.' ∉ rest.head?) :
    scanFraction (fractionText fraction ++ rest) = some (fraction, rest) := by
  cases fraction with
  | none =>
    show scanFraction rest = _
    unfold scanFraction
    split
    · exact absurd rfl hpoint
    · rfl
  | some ds =>
    have hds := hfraction ds rfl
    show scanFraction ('.' :: (Text.spell ds ++ rest)) = _
    rw [scanFraction, Text.spanDigits_spell hds.2 hrest]
    split
    · rename_i heq
      exact absurd (Prod.mk.inj heq).1 hds.1
    · rename_i heq
      cases heq
      rfl

theorem scanExponent_text {exponent : Option (Bool × List Nat)}
    (hexponent : ∀ e ∈ exponent, Digits e.2) {rest : List Char} (hrest : Delimited rest) :
    scanExponent (exponentText exponent ++ rest) = some (exponent, rest) := by
  cases exponent with
  | none =>
    show scanExponent rest = _
    cases rest with
    | nil => rfl
    | cons c rest =>
      obtain ⟨_, _, hlower, hupper⟩ := hrest c rfl
      have hmark : ¬(c = 'e' ∨ c = 'E') := by
        rintro (h | h)
        · exact hlower h
        · exact hupper h
      exact if_neg hmark
  | some e =>
    obtain ⟨negative, ds⟩ := e
    have hds : Digits ds := hexponent (negative, ds) rfl
    have hspan := Text.spanDigits_spell hds.2 hrest.noDigit
    cases negative with
    | false =>
      show scanExponent ('e' :: '+' :: (Text.spell ds ++ rest)) = _
      rw [scanExponent, if_pos (.inl rfl)]
      simp only [hspan]
      split
      · rename_i heq
        exact absurd (Prod.mk.inj heq).1 hds.1
      · rename_i heq
        cases heq
        rfl
    | true =>
      show scanExponent ('e' :: '-' :: (Text.spell ds ++ rest)) = _
      rw [scanExponent, if_pos (.inl rfl)]
      simp only [hspan]
      split
      · rename_i heq
        exact absurd (Prod.mk.inj heq).1 hds.1
      · rename_i heq
        cases heq
        rfl

/-- What follows the whole digits of a literal does not start with a digit. -/
theorem noDigit_fractionText (fraction : Option (List Nat)) (exponent : Option (Bool × List Nat))
    {rest : List Char} (hrest : Delimited rest) :
    Text.NoDigit (fractionText fraction ++ (exponentText exponent ++ rest)) := by
  cases fraction with
  | some ds => exact Text.noDigit_cons rfl
  | none =>
    cases exponent with
    | some e => exact Text.noDigit_cons rfl
    | none => exact hrest.noDigit

theorem noDigit_exponentText (exponent : Option (Bool × List Nat)) {rest : List Char}
    (hrest : Delimited rest) : Text.NoDigit (exponentText exponent ++ rest) :=
  noDigit_fractionText none exponent hrest

theorem point_notMem_exponentText (exponent : Option (Bool × List Nat)) {rest : List Char}
    (hrest : Delimited rest) : '.' ∉ (exponentText exponent ++ rest).head? := by
  cases exponent with
  | some e => simp [exponentText]
  | none => exact fun h => (hrest '.' h).2.1 rfl

/-- Reads the parts of a literal behind its sign. -/
def scanParts (negative : Bool) (text : List Char) : Option (Numeral × List Char) := do
  let (whole, text) ← scanWhole text
  let (fraction, text) ← scanFraction text
  let (exponent, text) ← scanExponent text
  return (⟨negative, whole, fraction, exponent⟩, text)

theorem scan_minus (text : List Char) : scan ('-' :: text) = scanParts true text := rfl

theorem scan_plain {text : List Char} (h : '-' ∉ text.head?) :
    scan text = scanParts false text := by
  unfold scan
  split
  · exact absurd rfl h
  · rfl

theorem scanParts_text {n : Numeral} (h : n.WellFormed) (negative : Bool) {rest : List Char}
    (hrest : Delimited rest) :
    scanParts negative (Text.spell n.whole ++
        (fractionText n.fraction ++ (exponentText n.exponent ++ rest))) =
      some (⟨negative, n.whole, n.fraction, n.exponent⟩, rest) := by
  have hwhole :=
    scanWhole_spell h.whole h.leading (noDigit_fractionText n.fraction n.exponent hrest)
  have hfraction := scanFraction_text h.fraction (noDigit_exponentText n.exponent hrest)
    (point_notMem_exponentText n.exponent hrest)
  have hexponent := scanExponent_text h.exponent hrest
  simp only [scanParts, hwhole, hfraction, hexponent, bind, Option.bind]
  rfl

theorem minus_notMem_spell {ds : List Nat} (h : Digits ds) (rest : List Char) :
    '-' ∉ (Text.spell ds ++ rest).head? := by
  cases ds with
  | nil => exact absurd rfl h.1
  | cons d ds =>
    intro hmem
    exact (digitChar_ne d (h.2 d List.mem_cons_self)).1 (Option.some.inj hmem)

/-- A literal in front of a text that does not go on with it is read as its parts. -/
theorem scan_text {n : Numeral} (h : n.WellFormed) {rest : List Char} (hrest : Delimited rest) :
    scan (n.text ++ rest) = some (n, rest) := by
  have hparts := fun negative => scanParts_text h negative hrest
  obtain ⟨negative, whole, fraction, exponent⟩ := n
  simp only [text, List.append_assoc]
  cases negative with
  | true =>
    show scan ('-' :: (Text.spell whole ++ _)) = _
    rw [scan_minus, hparts true]
  | false =>
    show scan (Text.spell whole ++ _) = _
    rw [scan_plain (minus_notMem_spell h.whole _), hparts false]

/-- The literal of an integer. -/
def ofInt (n : Int) : Numeral := ⟨n < 0, Text.digits n.natAbs, none, none⟩

theorem text_ofInt (n : Int) : (ofInt n).text = Text.decimalInt n := by
  simp only [text, ofInt, fractionText, exponentText, signText, Text.decimalInt,
    Text.decimal_eq_spell, List.append_nil]
  by_cases h : n < 0 <;> simp [h]

theorem digits_leading (n : Nat) : ∀ ds, Text.digits n = 0 :: ds → ds = [] := by
  intro ds h
  rcases Nat.eq_zero_or_pos n with rfl | hpos
  · rw [Text.digits_zero] at h
    exact (List.cons.inj h).2.symm
  · obtain ⟨d, es, hd, hpos⟩ := Text.digits_head_ne_zero hpos
    rw [hd] at h
    cases h
    exact absurd hpos (by omega)

theorem wellFormed_ofInt (n : Int) : (ofInt n).WellFormed where
  whole := digits_digits _
  leading := digits_leading _
  fraction := nofun
  exponent := nofun

/-- The literal of an integer in range denotes it. -/
theorem number?_ofInt (n : Integer) : (ofInt n.toInt).number? = some (.integer n) := by
  have hof : Integer.ofInt? n.toInt = some n := by
    rw [Integer.ofInt?, dif_pos n.inRange]
  have hinteger : (ofInt n.toInt).integer? = some n := by
    simp only [integer?, ofInt, Option.isSome_none, Bool.or_self, Bool.false_eq_true, if_false,
      Text.ofDigits_digits, decide_eq_true_eq]
    by_cases hn : n.toInt < 0
    · rw [if_pos hn, if_neg (by omega), show -(n.toInt.natAbs : Int) = n.toInt by omega, hof]
    · rw [if_neg hn, show (n.toInt.natAbs : Int) = n.toInt by omega, hof]
  rw [number?, hinteger]

end Numeral
end RecordCache.Json
