import Mathlib.Algebra.Group.Nat.Even
import RecordCache.Key.Composite

/-!
# Composite keys are read as they were written

Two separators are escaped in a composite key, each on its own side of the colon that ends the type.
Reading takes the escapes away again, so that no two entities share a key, but for one pair: no
values at all are written as one empty value is.

* `Key.splitType_escape`, `splitValues_intercalate`: each side is read as it was written;
* `Key.HasColon` says that a text has an unescaped colon, by the backslashes in front of it, and
  `splitType_eq_none` that this is what reading looks for;
* `Key.compose_parts`: writing and reading together.
-/

namespace RecordCache
namespace Key

/-! ### Reading what was written -/

theorem escape_nil (separator : Char) : escape separator [] = [] := rfl

theorem escape_cons (separator c : Char) (text : List Char) :
    escape separator (c :: text) =
      (if c = '\\' ∨ c = separator then ['\\', c] else [c]) ++ escape separator text := by
  simp [escape]

@[simp] theorem splitType_escaped (c : Char) (rest : List Char) :
    splitType ('\\' :: c :: rest) = (c :: (splitType rest).1, (splitType rest).2) := by
  rw [splitType]

@[simp] theorem splitType_colon (rest : List Char) : splitType (':' :: rest) = ([], some rest) := by
  simp [splitType]

theorem splitType_plain {c : Char} (hslash : c ≠ '\\') (hcolon : c ≠ ':') (rest : List Char) :
    splitType (c :: rest) = (c :: (splitType rest).1, (splitType rest).2) := by
  rw [splitType]
  · simp [hcolon]
  · simp [hslash]
  · simp [hslash]

/-- A type name is read up to the colon behind it. -/
theorem splitType_escape (text rest : List Char) :
    splitType (escape ':' text ++ ':' :: rest) = (text, some rest) := by
  induction text with
  | nil => simp [escape_nil]
  | cons c text ih =>
    by_cases hc : c = '\\' ∨ c = ':'
    · simp [escape_cons, hc, ih]
    · obtain ⟨hslash, hcolon⟩ := not_or.1 hc
      simp [escape_cons, hc, splitType_plain hslash hcolon, ih]

@[simp] theorem splitValues_escaped (c : Char) (rest : List Char) :
    splitValues ('\\' :: c :: rest) = consHead c (splitValues rest) := by
  rw [splitValues]

@[simp] theorem splitValues_plus (rest : List Char) :
    splitValues ('+' :: rest) = [] :: splitValues rest := by
  simp [splitValues]

theorem splitValues_plain {c : Char} (hslash : c ≠ '\\') (hplus : c ≠ '+') (rest : List Char) :
    splitValues (c :: rest) = consHead c (splitValues rest) := by
  rw [splitValues]
  · simp [hplus]
  · simp [hslash]
  · simp [hslash]

/-- A value in front of a rest that is split into a first text and others. -/
theorem splitValues_escape {rest first : List Char} {others : List (List Char)}
    (hrest : splitValues rest = first :: others) (text : List Char) :
    splitValues (escape '+' text ++ rest) = (text ++ first) :: others := by
  induction text with
  | nil => simpa [escape_nil] using hrest
  | cons c text ih =>
    by_cases hc : c = '\\' ∨ c = '+'
    · simp [escape_cons, hc, ih, consHead]
    · obtain ⟨hslash, hplus⟩ := not_or.1 hc
      simp [escape_cons, hc, splitValues_plain hslash hplus, ih, consHead]

/-- The values are read one after the other. By induction on the list: a plus sign that separates
two values is never escaped, as a value has none left that is not. -/
theorem splitValues_intercalate (values : List (List Char)) :
    splitValues (List.intercalate ['+'] (values.map (escape '+'))) =
      if values = [] then [[]] else values := by
  induction values with
  | nil => rfl
  | cons value values ih =>
    cases values with
    | nil =>
      have hend : splitValues [] = [] :: [] := rfl
      simpa using splitValues_escape hend value
    | cons next values =>
      rw [if_neg (List.cons_ne_nil _ _)] at ih ⊢
      have hrest : splitValues ('+' :: List.intercalate ['+'] ((next :: values).map (escape '+'))) =
          [] :: next :: values := by
        rw [splitValues_plus, ih]
      have hvalue := splitValues_escape hrest value
      rw [List.append_nil] at hvalue
      rw [List.map_cons, List.map_cons, List.intercalate_cons_cons, List.append_assoc]
      exact hvalue

theorem splitValues_ne_nil (text : List Char) : splitValues text ≠ [] := by
  have hcons (c : Char) (texts : List (List Char)) : consHead c texts ≠ [] := by
    cases texts <;> exact List.cons_ne_nil _ _
  fun_cases splitValues text
  · exact List.cons_ne_nil _ _
  · exact List.cons_ne_nil _ _
  · exact hcons _ _
  · exact List.cons_ne_nil _ _
  · exact hcons _ _

/-- What is read of a key that was written; no values are read as one empty value. -/
theorem parts?_compose (typeName : String) (values : List String) :
    (compose typeName values).parts? =
      some (typeName, if values = [] then [""] else values) := by
  have htype := splitType_escape typeName.toList
    (List.intercalate ['+'] (values.map fun value => escape '+' value.toList))
  have hvalues := splitValues_intercalate (values.map String.toList)
  rw [List.map_map] at hvalues
  have hmap : values.map (escape '+' ∘ String.toList) =
      values.map fun value => escape '+' value.toList := rfl
  rw [parts?, compose, String.toList_ofList, htype]
  dsimp only
  rw [← hmap, hvalues, String.ofList_toList]
  cases values with
  | nil => rfl
  | cons value values => simp

/-- Two entities share a key exactly if one has no values and the other one empty value, of the same
type. -/
theorem compose_eq_iff (typeName otherType : String) (values others : List String) :
    compose typeName values = compose otherType others ↔
      typeName = otherType ∧
        (values = others ∨ values = [] ∧ others = [""] ∨ values = [""] ∧ others = []) := by
  constructor
  · intro hsame
    have hparts := congrArg parts? hsame
    rw [parts?_compose, parts?_compose] at hparts
    simp only [Option.some.injEq, Prod.mk.injEq] at hparts
    refine ⟨hparts.1, ?_⟩
    have hvalues := hparts.2
    split_ifs at hvalues with hnone hnoneOther hnoneOther
    · exact .inl (hnone.trans hnoneOther.symm)
    · exact .inr (.inl ⟨hnone, hvalues.symm⟩)
    · exact .inr (.inr ⟨hvalues, hnoneOther⟩)
    · exact .inl hvalues
  · rintro ⟨rfl, rfl | ⟨rfl, rfl⟩ | ⟨rfl, rfl⟩⟩ <;> rfl

/-! ### The colon that ends a type -/

/-- The number of backslashes at the end of a text. -/
def trailingSlashes (text : List Char) : Nat := (text.reverse.takeWhile fun c => c = '\\').length

/-- The text has an unescaped colon: the backslashes right in front of it escape each other. -/
def HasColon (text : List Char) : Prop :=
  ∃ before after, text = before ++ ':' :: after ∧ Even (trailingSlashes before)

theorem trailingSlashes_cons {c : Char} (hslash : c ≠ '\\') (text : List Char) :
    trailingSlashes (c :: text) = trailingSlashes text := by
  simp only [trailingSlashes, List.reverse_cons, List.takeWhile_append]
  split
  · rename_i hall
    simp [hslash, hall]
  · rfl

/-- An escape in front of a text leaves the backslashes at its end as they are, or adds both of its
characters to them. -/
theorem even_trailingSlashes_escaped (c : Char) (text : List Char) :
    Even (trailingSlashes ('\\' :: c :: text)) ↔ Even (trailingSlashes text) := by
  by_cases hslash : c = '\\'
  · subst hslash
    simp only [trailingSlashes, List.reverse_cons, List.append_assoc, List.takeWhile_append]
    split
    · rename_i hall
      rw [hall]
      simp [Nat.even_add, show Even 2 from ⟨1, rfl⟩]
    · exact Iff.rfl
  · simp only [trailingSlashes, List.reverse_cons, List.append_assoc, List.takeWhile_append]
    split
    · rename_i hall
      rw [hall]
      simp [hslash]
    · exact Iff.rfl

theorem hasColon_escaped (c : Char) (rest : List Char) :
    HasColon ('\\' :: c :: rest) ↔ HasColon rest := by
  constructor
  · rintro ⟨before, after, htext, heven⟩
    match before, htext, heven with
    | [], htext, _ => simp at htext
    | ['\\'], _, heven => simp [trailingSlashes] at heven
    | _ :: _ :: before, htext, heven =>
      simp only [List.cons_append, List.cons.injEq] at htext
      obtain ⟨rfl, rfl, hrest⟩ := htext
      exact ⟨before, after, hrest, (even_trailingSlashes_escaped _ _).1 heven⟩
  · rintro ⟨before, after, rfl, heven⟩
    exact ⟨'\\' :: c :: before, after, rfl, (even_trailingSlashes_escaped _ _).2 heven⟩

theorem hasColon_plain {c : Char} (hslash : c ≠ '\\') (hcolon : c ≠ ':') (rest : List Char) :
    HasColon (c :: rest) ↔ HasColon rest := by
  constructor
  · rintro ⟨_ | ⟨first, before⟩, after, htext, heven⟩
    · simp [hcolon] at htext
    · simp only [List.cons_append, List.cons.injEq] at htext
      obtain ⟨rfl, hrest⟩ := htext
      exact ⟨before, after, hrest, trailingSlashes_cons hslash before ▸ heven⟩
  · rintro ⟨before, after, rfl, heven⟩
    exact ⟨c :: before, after, rfl, (trailingSlashes_cons hslash before).symm ▸ heven⟩

/-- A type ends somewhere exactly if there is an unescaped colon. The induction is that of reading,
an escape at a time. -/
theorem splitType_eq_none (text : List Char) : (splitType text).2 = none ↔ ¬HasColon text := by
  induction text using splitType.induct with
  | case1 => simp [splitType, HasColon]
  | case2 =>
    have hnone : ¬HasColon ['\\'] := by
      rintro ⟨_ | ⟨first, before⟩, after, htext, -⟩ <;> simp at htext
    simpa [splitType] using hnone
  | case3 c rest ih => rw [splitType_escaped, hasColon_escaped, ih]
  | case4 rest _ hslash =>
    have hcolon : HasColon (':' :: rest) := ⟨[], rest, rfl, by simp [trailingSlashes]⟩
    simpa using hcolon
  | case5 c rest hlone hescape hcolon ih =>
    have hslash : c ≠ '\\' := by
      rintro rfl
      cases rest with
      | nil => exact hlone rfl rfl
      | cons d rest => exact hescape d rest rfl rfl
    rw [splitType_plain hslash hcolon, hasColon_plain hslash hcolon, ih]

theorem parts?_eq_none (key : Key) : key.parts? = none ↔ ¬HasColon key.text.toList := by
  rw [← splitType_eq_none, parts?]
  cases hsplit : splitType key.text.toList with
  | mk typeName rest => cases rest <;> simp

/-- **Composite keys.** A type name and values are read from their key as they were written, except
that no values are read as one empty value, and two such pairs share a key only for that reason.
Every other text that has an unescaped colon is read too, as a type name with at least one value
that are read again from the key composed of them, and any text without one is refused. -/
theorem compose_parts :
    (∀ typeName values, (compose typeName values).parts? =
      some (typeName, if values = [] then [""] else values)) ∧
    (∀ typeName otherType values others, compose typeName values = compose otherType others ↔
      typeName = otherType ∧
        (values = others ∨ values = [] ∧ others = [""] ∨ values = [""] ∧ others = [])) ∧
    ∀ key : Key, key.parts? = none ∧ ¬HasColon key.text.toList ∨
      HasColon key.text.toList ∧ ∃ typeName values, key.parts? = some (typeName, values) ∧
        values ≠ [] ∧ (compose typeName values).parts? = some (typeName, values) := by
  refine ⟨parts?_compose, compose_eq_iff, fun key => ?_⟩
  cases hparts : key.parts? with
  | none => exact .inl ⟨rfl, (parts?_eq_none key).1 hparts⟩
  | some parts =>
    obtain ⟨typeName, values⟩ := parts
    have hcolon : HasColon key.text.toList := by
      by_contra hnone
      rw [(parts?_eq_none key).2 hnone] at hparts
      cases hparts
    have hvalues : values ≠ [] := by
      rw [parts?] at hparts
      split at hparts
      · cases hparts
        simpa using splitValues_ne_nil _
      · cases hparts
    refine .inr ⟨hcolon, typeName, values, rfl, hvalues, ?_⟩
    rw [parts?_compose, if_neg hvalues]

/-- Adversarial runs of separators and backslashes on both sides. -/
example : (compose "a\\:" ["+\\", "", "\\+"]).parts? = some ("a\\:", ["+\\", "", "\\+"]) := by
  decide +kernel

end Key
end RecordCache
