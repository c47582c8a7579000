import RecordCache.Proofs.Pattern.Glob

/-!
# The language of a glob

What a glob stands for, piece by piece, without regard to how it is matched. A literal that is
special in a glob goes into brackets, so that a pattern and its glob stand for the same texts,
whatever characters they are made of.

* `Glob.Matches` is the relation between globs and texts, with `matches_run`, `matches_one`,
  `matches_bracket` and `matches_literal` for the pieces at the front;
* `Pattern.covers_anyRun_iff`: the matcher of tokens finds some place where an any run ends;
* `Pattern.matches_glob`: a pattern accepts the keys that its glob matches;
* `Glob.Documented` says that the table finds a key with a glob exactly if the glob matches it.
-/

namespace RecordCache
namespace Glob

/-- The glob stands for the text: `*` for any text, `?` for any one character, `[c]` for `c`, and
any other character for itself. -/
inductive Matches : List Char → List Char → Prop
  | nil : Matches [] []
  | run {glob text : List Char} (skipped : List Char) :
    Matches glob text → Matches ('*' :: glob) (skipped ++ text)
  | one {glob text : List Char} (c : Char) : Matches glob text → Matches ('?' :: glob) (c :: text)
  | bracket {glob text : List Char} (c : Char) :
    Matches glob text → Matches ('[' :: c :: ']' :: glob) (c :: text)
  | literal {glob text : List Char} {c : Char} :
    isSpecial c = false → Matches glob text → Matches (c :: glob) (c :: text)

section Pieces

variable {glob text : List Char} {d : Char}

theorem matches_nil : Matches [] text ↔ text = [] := by
  constructor
  · rintro ⟨⟩
    rfl
  · rintro rfl
    exact .nil

theorem matches_run :
    Matches ('*' :: glob) text ↔ ∃ skipped rest, text = skipped ++ rest ∧ Matches glob rest := by
  constructor
  · intro h
    cases h with
    | run skipped h => exact ⟨skipped, _, rfl, h⟩
    | literal hplain _ => cases hplain
  · rintro ⟨skipped, rest, rfl, h⟩
    exact .run skipped h

theorem matches_one :
    Matches ('?' :: glob) text ↔ ∃ c rest, text = c :: rest ∧ Matches glob rest := by
  constructor
  · intro h
    cases h with
    | one c h => exact ⟨c, _, rfl, h⟩
    | literal hplain _ => cases hplain
  · rintro ⟨c, rest, rfl, h⟩
    exact .one c h

theorem matches_bracket :
    Matches ('[' :: d :: ']' :: glob) text ↔ ∃ rest, text = d :: rest ∧ Matches glob rest := by
  constructor
  · intro h
    cases h with
    | bracket _ h => exact ⟨_, rfl, h⟩
    | literal hplain _ => cases hplain
  · rintro ⟨rest, rfl, h⟩
    exact .bracket d h

theorem matches_literal (hplain : isSpecial d = false) :
    Matches (d :: glob) text ↔ ∃ rest, text = d :: rest ∧ Matches glob rest := by
  constructor
  · intro h
    cases h with
    | run _ _ => cases hplain
    | one _ _ => cases hplain
    | bracket _ _ => cases hplain
    | literal _ h => exact ⟨_, rfl, h⟩
  · rintro ⟨rest, rfl, h⟩
    exact .literal hplain h

end Pieces

/-- The table finds the key with the glob exactly if the glob matches it, and does not refuse the
comparison. -/
structure Documented (glob : String) (key : Key) : Prop where
  compares : (isTooLong glob && compares glob key) = false
  selects : selects glob key = true ↔ Matches glob.toList key.text.toList

end Glob

namespace Pattern

/-- Any run is followed by what the other tokens match. By induction on the text: the run ends here,
or takes one more character. -/
theorem covers_anyRun_iff {tokens : List Token} {text : List Char} :
    covers (.anyRun :: tokens) text = true ↔
      ∃ skipped rest, text = skipped ++ rest ∧ covers tokens rest = true := by
  induction text with
  | nil =>
    rw [covers_cons_nil, decide_eq_true rfl, Bool.true_and]
    constructor
    · exact fun h => ⟨[], [], rfl, h⟩
    · rintro ⟨skipped, rest, hempty, h⟩
      rw [(List.append_eq_nil_iff.1 hempty.symm).2] at h
      exact h
  | cons c text ih =>
    rw [covers_anyRun, Bool.or_eq_true, ih]
    constructor
    · rintro (h | ⟨skipped, rest, rfl, h⟩)
      · exact ⟨[], c :: text, rfl, h⟩
      · exact ⟨c :: skipped, rest, rfl, h⟩
    · rintro ⟨_ | ⟨d, skipped⟩, rest, hsplit, h⟩
      · rw [List.nil_append] at hsplit
        exact .inl (hsplit ▸ h)
      · obtain ⟨-, rfl⟩ := List.cons_eq_cons.1 hsplit
        exact .inr ⟨skipped, rest, rfl, h⟩

/-- By induction on the tokens, each of which stands for the same texts as its piece of the glob. -/
theorem matches_flatMap_glob (tokens : List Token) (text : List Char) :
    Glob.Matches (tokens.flatMap Token.glob) text ↔ covers tokens text = true := by
  induction tokens generalizing text with
  | nil =>
    rw [List.flatMap_nil, Glob.matches_nil]
    cases text with
    | nil => exact iff_of_true rfl rfl
    | cons c text => simp [covers_nil_cons]
  | cons token tokens ih =>
    rw [List.flatMap_cons]
    cases token with
    | anyRun =>
      show Glob.Matches ('*' :: tokens.flatMap Token.glob) text ↔ _
      simp only [Glob.matches_run, ih, covers_anyRun_iff]
    | anyOne =>
      show Glob.Matches ('?' :: tokens.flatMap Token.glob) text ↔ _
      rw [Glob.matches_one]
      cases text with
      | nil => simp [covers_cons_nil]
      | cons c text => simp [covers_anyOne, ih, and_assoc]
    | literal d =>
      have hpiece : Glob.Matches (Token.glob (.literal d) ++ tokens.flatMap Token.glob) text ↔
          ∃ rest, text = d :: rest ∧ Glob.Matches (tokens.flatMap Token.glob) rest := by
        rw [Token.glob]
        split
        · exact Glob.matches_bracket
        · rename_i hplain
          exact Glob.matches_literal (by simpa [Glob.isSpecial, and_assoc] using hplain)
      rw [hpiece]
      cases text with
      | nil => simp [covers_cons_nil]
      | cons c text => simp [covers_literal, ih, and_assoc, eq_comm (a := d)]

/-- A pattern accepts the keys that its glob matches. -/
theorem matches_glob (pattern : Pattern) (key : Key) :
    Glob.Matches pattern.glob.toList key.text.toList ↔ pattern.accepts key = true := by
  rw [glob, String.toList_ofList]
  exact matches_flatMap_glob pattern.tokens key.text.toList

/-- The table serves the glob of a pattern as it is meant exactly if it does so as documented. -/
theorem documented_iff {pattern : Pattern} {key : Key} :
    Glob.Documented pattern.glob key ↔ Glob.Serves pattern.glob key := by
  have hsame : (Glob.selects pattern.glob key = true ↔
        Glob.Matches pattern.glob.toList key.text.toList) ↔
      Glob.selects pattern.glob key = Glob.accepts pattern.glob.toList key.text.toList := by
    rw [matches_glob, accepts_glob]
    exact Bool.eq_iff_iff.symm
  exact ⟨fun h => ⟨h.compares, hsame.1 h.selects⟩, fun h => ⟨h.compares, hsame.2 h.selects⟩⟩

end Pattern
end RecordCache
