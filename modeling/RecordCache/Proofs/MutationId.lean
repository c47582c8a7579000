import Mathlib.Algebra.GroupWithZero.Nat
import RecordCache.MutationId
import RecordCache.Proofs.Text.Decimal

/-!
# Reading mutation identifiers back

The hyphenated form of an identifier is none of the other forms, and is read as the identifier.

* `MutationId.dehyphenate?_hyphenate`: the hyphens are taken out again;
* `MutationId.parse?_text`: the identifier is read back.
-/

namespace RecordCache
namespace MutationId

/-- The characters of digits. -/
def spell (digits : List (Fin 16)) : List Char := digits.map fun d => Text.hexDigit d.val

theorem digit?_hexDigit (d : Fin 16) : digit? (Text.hexDigit d.val) = some d := by
  rw [digit?, Text.hexValue?_hexDigit d.val d.isLt, Option.bind_some, dif_pos d.isLt]

theorem digit?_hyphen : digit? '-' = none := by decide

theorem mapM_digit?_spell (digits : List (Fin 16)) : (spell digits).mapM digit? = some digits := by
  induction digits with
  | nil => rfl
  | cons d digits ih =>
    show (Text.hexDigit d.val :: spell digits).mapM digit? = _
    rw [List.mapM_cons, digit?_hexDigit, ih]
    rfl

/-- A hyphen is no digit. -/
theorem mapM_digit?_of_hyphen {text : List Char} (h : '-' ∈ text) : text.mapM digit? = none := by
  induction text with
  | nil => cases h
  | cons c text ih =>
    rw [List.mapM_cons]
    rcases List.mem_cons.1 h with rfl | h
    · rw [digit?_hyphen]
      rfl
    · rw [ih h]
      cases digit? c <;> rfl

theorem ofDigits?_spell (id : MutationId) : ofDigits? (spell id.digits) = some id := by
  rw [ofDigits?, mapM_digit?_spell]
  show (if h : id.digits.length = 32 then some (⟨id.digits, h⟩ : MutationId) else none) = some id
  rw [dif_pos id.length_digits]

/-- Hyphens between groups of the given lengths are taken out again. -/
theorem dehyphenate?_hyphenate (lengths : List Nat) (digits : List Char)
    (h : lengths.sum = digits.length) :
    dehyphenate? lengths (hyphenate lengths digits) = some digits := by
  induction lengths generalizing digits with
  | nil => rfl
  | cons n lengths ih =>
    cases lengths with
    | nil => rfl
    | cons k lengths =>
      have hn : n ≤ digits.length := by
        rw [← h, List.sum_cons]
        exact Nat.le_add_right _ _
      have htake : (digits.take n).length = n := List.length_take_of_le hn
      have hrest := ih (digits.drop n) (by
        rw [List.length_drop, ← h]
        simp only [List.sum_cons]
        omega)
      have hdrop : (hyphenate (n :: k :: lengths) digits).drop n =
          '-' :: hyphenate (k :: lengths) (digits.drop n) := by
        rw [hyphenate, List.drop_append_of_le_length (Nat.le_of_eq htake.symm),
          List.drop_of_length_le (Nat.le_of_eq htake)]
        · rfl
        · nofun
      have hfront : (hyphenate (n :: k :: lengths) digits).take n = digits.take n := by
        rw [hyphenate, List.take_append_of_le_length (Nat.le_of_eq htake.symm),
          List.take_of_length_le (Nat.le_of_eq htake)]
        nofun
      rw [dehyphenate?, hdrop, hfront]
      · show (dehyphenate? (k :: lengths) _).map _ = _
        rw [hrest, Option.map_some, List.take_append_drop]
      · nofun

theorem hexDigit_plain : ∀ d < 16, Text.hexDigit d ≠ '\x7b' ∧
    (Text.hexDigit d).toLower ≠ 'u' := by decide

theorem length_spell (id : MutationId) : (spell id.digits).length = 32 := by
  rw [spell, List.length_map, id.length_digits]

/-- An identifier starts with a digit, so that no scheme and no brace stands in front. -/
theorem text_cons (id : MutationId) :
    ∃ d < 16, ∃ rest,
      hyphenate groups (spell id.digits) = Text.hexDigit d :: rest ∧ '-' ∈ rest := by
  obtain ⟨digits, hlength⟩ := id
  match digits with
  | d :: digits =>
    refine ⟨d.val, d.isLt, _, rfl, ?_⟩
    rw [List.append_eq]
    exact List.mem_append_right _ List.mem_cons_self

/-- The text of an identifier is read back. -/
theorem parse?_text (id : MutationId) : parse? id.text = some id := by
  have hchars : id.text.toList = hyphenate groups (spell id.digits) := String.toList_ofList
  have hhyphenated : ofHyphenated? (hyphenate groups (spell id.digits)) = some id := by
    rw [ofHyphenated?, dehyphenate?_hyphenate groups _ (length_spell id).symm, Option.bind_some,
      ofDigits?_spell]
  obtain ⟨d, hd, rest, htext, hhyphen⟩ := text_cons id
  obtain ⟨hbrace, hscheme⟩ := hexDigit_plain d hd
  have hafter : afterScheme? (Text.hexDigit d :: rest) = none := by
    rw [afterScheme?, if_neg]
    intro h
    exact hscheme (List.cons.inj h).1
  have hinside : insideBraces? (Text.hexDigit d :: rest) = none := by
    unfold insideBraces?
    split
    · rename_i heq
      exact absurd (List.cons.inj heq).1 hbrace
    · rfl
  have hdigits : ofDigits? (Text.hexDigit d :: rest) = none := by
    rw [ofDigits?, mapM_digit?_of_hyphen (List.mem_cons_of_mem _ hhyphen)]
    rfl
  rw [parse?, hchars, htext]
  rw [htext] at hhyphenated
  simp only [hafter, hinside, hdigits, hhyphenated]
  rfl

end MutationId
end RecordCache
