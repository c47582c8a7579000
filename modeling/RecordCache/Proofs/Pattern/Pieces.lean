import Mathlib.Data.List.Forall2
import RecordCache.Proofs.Pattern.Grammar
import RecordCache.Proofs.Pattern.Language

/-!
# The keys of a pattern

A key matches a pattern if it can be cut into pieces, one for each token, such that each token
stands for its piece. A text whose special characters are escaped is a pattern for itself alone, and
the patterns that match every key are those of any runs and nothing else.

* `Token.StandsFor` says which pieces a token stands for;
* `Pattern.covers_iff_pieces`: the matcher finds the pieces whenever there are any;
* `Pattern.covers_all_iff`: the tokens that match every text;
* `Pattern.escaped`, with `Pattern.parse_escaped`: the pattern for one text;
* `Pattern.accepts_pieces`: what a pattern that has been read matches.
-/

namespace RecordCache

/-- The pieces of a key that a token stands for: any piece, any one character, or the character that
was written. -/
def Token.StandsFor : Token → List Char → Prop
  | .anyRun, _ => True
  | .anyOne, piece => ∃ c, piece = [c]
  | .literal c, piece => piece = [c]

namespace Pattern

variable {tokens : List Token} {token : Token} {text : List Char}

/-- The first token takes a piece off the front, and the other tokens match the rest. -/
theorem covers_cons_iff : covers (token :: tokens) text = true ↔
    ∃ piece rest, token.StandsFor piece ∧ piece ++ rest = text ∧ covers tokens rest = true := by
  cases token with
  | anyRun => simp [covers_anyRun_iff, Token.StandsFor, eq_comm (b := text)]
  | anyOne =>
    cases text with
    | nil => simp [covers_cons_nil, Token.StandsFor]
    | cons c text =>
      rw [covers_anyOne]
      constructor
      · intro h
        exact ⟨[c], text, ⟨c, rfl⟩, rfl, h⟩
      · rintro ⟨_, rest, ⟨d, rfl⟩, hsplit, h⟩
        cases hsplit
        exact h
  | literal d =>
    cases text with
    | nil => simp [covers_cons_nil, Token.StandsFor]
    | cons c text => simp [covers_literal, Token.StandsFor]

/-- By induction on the tokens, each of which takes its piece off the front. -/
theorem covers_iff_pieces (tokens : List Token) (text : List Char) : covers tokens text = true ↔
    ∃ pieces, List.Forall₂ Token.StandsFor tokens pieces ∧ pieces.flatten = text := by
  induction tokens generalizing text with
  | nil =>
    cases text with
    | nil => exact iff_of_true rfl ⟨[], .nil, rfl⟩
    | cons c text => simp [covers_nil_cons]
  | cons token tokens ih =>
    rw [covers_cons_iff]
    constructor
    · rintro ⟨piece, rest, hpiece, rfl, hrest⟩
      obtain ⟨pieces, hpieces, rfl⟩ := (ih rest).1 hrest
      exact ⟨piece :: pieces, .cons hpiece hpieces, rfl⟩
    · rintro ⟨_, _ | ⟨hpiece, hpieces⟩, rfl⟩
      exact ⟨_, _, hpiece, rfl, (ih _).2 ⟨_, hpieces, rfl⟩⟩

/-- The empty text is left to any runs. -/
theorem covers_empty_iff (tokens : List Token) :
    covers tokens [] = true ↔ ∀ token ∈ tokens, token = .anyRun := by
  induction tokens with
  | nil => exact iff_of_true rfl (List.forall_mem_nil _)
  | cons token tokens ih => simp [covers_cons_nil, ih]

/-- Every text matches any runs, and whatever else matches the empty text does not match all. -/
theorem covers_all_iff (tokens : List Token) :
    (∀ text, covers tokens text = true) ↔ tokens ≠ [] ∧ ∀ token ∈ tokens, token = .anyRun := by
  constructor
  · intro h
    refine ⟨?_, (covers_empty_iff tokens).1 (h [])⟩
    rintro rfl
    cases h ['x']
  · rintro ⟨hne, hruns⟩ text
    cases tokens with
    | nil => exact absurd rfl hne
    | cons token tokens =>
      obtain ⟨rfl, hrest⟩ := List.forall_mem_cons.1 hruns
      exact covers_anyRun_iff.2 ⟨text, [], (List.append_nil text).symm,
        (covers_empty_iff tokens).2 hrest⟩

theorem acceptsAll_iff (pattern : Pattern) :
    pattern.acceptsAll = true ↔ ∀ key : Key, pattern.accepts key = true := by
  have hkeys : (∀ key : Key, pattern.accepts key = true) ↔
      ∀ text, covers pattern.tokens text = true := by
    constructor
    · intro h text
      have hkey := h ⟨String.ofList text⟩
      rwa [accepts, String.toList_ofList] at hkey
    · exact fun h key => h key.text.toList
  rw [hkeys, covers_all_iff]
  simp [acceptsAll]

/-- The text with its special characters escaped. -/
def escaped (text : String) : String :=
  String.ofList (text.toList.flatMap fun c => if isEscapable c then ['\\', c] else [c])

/-- The tokens for one text. -/
def literals (text : String) : List Token := text.toList.map .literal

/-- Characters match themselves only. -/
theorem covers_literals (chars text : List Char) :
    covers (chars.map .literal) text = true ↔ text = chars := by
  induction chars generalizing text with
  | nil =>
    cases text with
    | nil => exact iff_of_true rfl rfl
    | cons c text => simp [covers_nil_cons]
  | cons d chars ih =>
    cases text with
    | nil => simp [covers_cons_nil]
    | cons c text => simp [covers_literal, ih, eq_comm (a := d)]

theorem parse_escaped (text : String) : parse (escaped text) =
    if fits (literals text) then .ok ⟨escaped text, literals text⟩
    else .error (tooLarge (escaped text)) := by
  apply parse_spelled
  rw [literals, List.flatMap_map, escaped, String.toList_ofList]
  rfl

/-- **The keys of a pattern.** The tokens that are read of a text spell it, and a key matches them
exactly if it consists of pieces for which they stand, one after the other. So the patterns that
match every key are those that say so, and a text with its special characters escaped is read, if it
is not too long, and matches itself alone. -/
theorem accepts_pieces :
    (∀ (source : String) (pattern : Pattern), parse source = .ok pattern →
      pattern.tokens.flatMap Token.text = source.toList ∧
      (∀ key : Key, pattern.accepts key = true ↔
        ∃ pieces, List.Forall₂ Token.StandsFor pattern.tokens pieces ∧
          pieces.flatten = key.text.toList) ∧
      (pattern.acceptsAll = true ↔ ∀ key : Key, pattern.accepts key = true)) ∧
    ∀ text : String,
      (parse (escaped text) =
        if fits (literals text) then .ok ⟨escaped text, literals text⟩
        else .error (tooLarge (escaped text))) ∧
      ∀ pattern, parse (escaped text) = .ok pattern →
        ∀ key : Key, pattern.accepts key = true ↔ key.text = text := by
  refine ⟨fun source pattern hparse => ?_, fun text => ⟨parse_escaped text, ?_⟩⟩
  · exact ⟨spelled_of_parse hparse, fun key => covers_iff_pieces _ _, acceptsAll_iff pattern⟩
  · intro pattern hparse key
    rw [parse_escaped] at hparse
    split at hparse
    · cases hparse
      rw [← String.toList_inj]
      exact covers_literals text.toList key.text.toList
    · cases hparse

/-- An escaped sign of any run is a character like others, and a line break is one character. -/
theorem accepts_pieces_line_break :
    parse "a\\%_%" = .ok ⟨"a\\%_%", [.literal 'a', .literal '%', .anyOne, .anyRun]⟩ ∧
      (∃ pieces,
        List.Forall₂ Token.StandsFor [.literal 'a', .literal '%', .anyOne, .anyRun] pieces ∧
          pieces.flatten = "a%\nbc".toList) ∧
      (Pattern.mk "a\\%_%" [.literal 'a', .literal '%', .anyOne, .anyRun]).accepts ⟨"abc"⟩ =
        false :=
  ⟨rfl, ((accepts_pieces.1 "a\\%_%" _ rfl).2.1 ⟨"a%\nbc"⟩).1 (by decide), by decide⟩

end Pattern
end RecordCache
