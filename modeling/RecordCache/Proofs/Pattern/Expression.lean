import RecordCache.Proofs.Pattern.Language

/-!
# The regular expression of a pattern

A pattern is written as a regular expression that is anchored at both ends, in which a dot stands
for any character and every character of the pattern for itself. Searched for in a key, it is found
exactly in the keys that the pattern accepts.

* `Expression` is a regular expression of the kind that patterns are written in, and
  `Expression.read?` reads one;
* `Expression.Matches` says which part of a text the items of an expression match, and
  `Expression.Finds` in which texts it is found;
* `Pattern.read_expression`: what a pattern writes is read as its tokens between two anchors;
* `Pattern.finds_expression`: the keys in which it is found.
-/

namespace RecordCache

/-- An item of a regular expression: an anchor at the start or at the end of the text, a character,
a dot, or a dot with a star. -/
inductive Expression.Item
  | start
  | finish
  | char (c : Char)
  | dot
  | dotStar
  deriving DecidableEq

/-- A regular expression. -/
structure Expression where
  /-- Whether a dot stands for a line break too. -/
  dotAll : Bool
  items : List Expression.Item
  deriving DecidableEq

namespace Expression

/-- Reads items. A character with a meaning of its own stands for itself behind a backslash only. -/
def readItems? : List Char → Option (List Item)
  | [] => some []
  | '^' :: text => (.start :: ·) <$> readItems? text
  | '$' :: text => (.finish :: ·) <$> readItems? text
  | '.' :: '*' :: text => (.dotStar :: ·) <$> readItems? text
  | '.' :: text => (.dot :: ·) <$> readItems? text
  | '\\' :: c :: text => if Pattern.isMeta c then (.char c :: ·) <$> readItems? text else none
  | c :: text => if Pattern.isMeta c then none else (.char c :: ·) <$> readItems? text

/-- Reads an expression, none if it has anything but these items and the flag for the dot. -/
def read? : List Char → Option Expression
  | '(' :: '?' :: 's' :: ')' :: text => (⟨true, ·⟩) <$> readItems? text
  | text => (⟨false, ·⟩) <$> readItems? text

/-- The characters that a dot stands for. -/
def Dot (dotAll : Bool) (c : Char) : Prop := dotAll = true ∨ c ≠ '\n'

/-- The items match a part of a text that has `before` in front of it, the last character first,
and `after` behind it. -/
inductive Matches (dotAll : Bool) : List Item → List Char → List Char → List Char → Prop
  | nil (before after : List Char) : Matches dotAll [] before [] after
  | start {items : List Item} {text after : List Char} :
    Matches dotAll items [] text after → Matches dotAll (.start :: items) [] text after
  | finish {items : List Item} {before : List Char} :
    Matches dotAll items before [] [] → Matches dotAll (.finish :: items) before [] []
  | char {items : List Item} {before text after : List Char} (c : Char) :
    Matches dotAll items (c :: before) text after →
      Matches dotAll (.char c :: items) before (c :: text) after
  | dot {items : List Item} {before text after : List Char} {c : Char} (hc : Dot dotAll c) :
    Matches dotAll items (c :: before) text after →
      Matches dotAll (.dot :: items) before (c :: text) after
  | dotStar {items : List Item} {before skipped text after : List Char}
    (hskipped : ∀ c ∈ skipped, Dot dotAll c) :
    Matches dotAll items (skipped.reverse ++ before) text after →
      Matches dotAll (.dotStar :: items) before (skipped ++ text) after

section Items

variable {dotAll : Bool} {items : List Item} {before text after : List Char}

theorem matches_nil : Matches dotAll [] before text after ↔ text = [] := by
  constructor
  · intro h
    cases h
    rfl
  · rintro rfl
    exact .nil before after

theorem matches_start : Matches dotAll (.start :: items) before text after ↔
    before = [] ∧ Matches dotAll items [] text after := by
  constructor
  · intro h
    cases h with
    | start h => exact ⟨rfl, h⟩
  · rintro ⟨rfl, h⟩
    exact .start h

theorem matches_finish : Matches dotAll (.finish :: items) before text after ↔
    text = [] ∧ after = [] ∧ Matches dotAll items before [] [] := by
  constructor
  · intro h
    cases h with
    | finish h => exact ⟨rfl, rfl, h⟩
  · rintro ⟨rfl, rfl, h⟩
    exact .finish h

theorem matches_char {c : Char} : Matches dotAll (.char c :: items) before text after ↔
    ∃ rest, text = c :: rest ∧ Matches dotAll items (c :: before) rest after := by
  constructor
  · intro h
    cases h with
    | char _ h => exact ⟨_, rfl, h⟩
  · rintro ⟨rest, rfl, h⟩
    exact .char c h

theorem matches_dot : Matches dotAll (.dot :: items) before text after ↔
    ∃ c rest, text = c :: rest ∧ Dot dotAll c ∧ Matches dotAll items (c :: before) rest after := by
  constructor
  · intro h
    cases h with
    | dot hc h => exact ⟨_, _, rfl, hc, h⟩
  · rintro ⟨c, rest, rfl, hc, h⟩
    exact .dot hc h

theorem matches_dotStar : Matches dotAll (.dotStar :: items) before text after ↔
    ∃ skipped rest, text = skipped ++ rest ∧ (∀ c ∈ skipped, Dot dotAll c) ∧
      Matches dotAll items (skipped.reverse ++ before) rest after := by
  constructor
  · intro h
    cases h with
    | dotStar hskipped h => exact ⟨_, _, rfl, hskipped, h⟩
  · rintro ⟨skipped, rest, rfl, hskipped, h⟩
    exact .dotStar hskipped h

end Items

/-- The expression is found in the text: it matches some part of it. -/
def Finds (expression : Expression) (text : List Char) : Prop :=
  ∃ before part after, text = before ++ part ++ after ∧
    Matches expression.dotAll expression.items before.reverse part after

end Expression

namespace Pattern

open Expression (Matches readItems?)

/-- The token as an item of an expression. -/
def Token.item : Token → Expression.Item
  | .anyRun => .dotStar
  | .anyOne => .dot
  | .literal c => .char c

/-- What a pattern writes has no star but behind a dot. -/
theorem head_expression (tokens : List Token) (text : List Char) :
    tokens.flatMap Token.expression ++ ['$'] ≠ '*' :: text := by
  cases tokens with
  | nil => simp
  | cons token tokens =>
    cases token with
    | anyRun => simp [Token.expression]
    | anyOne => simp [Token.expression]
    | literal c =>
      rw [List.flatMap_cons, Token.expression]
      split
      · simp
      · rename_i hplain
        rintro heq
        obtain ⟨rfl, -⟩ := List.cons.inj heq
        exact hplain rfl

/-- A character without a meaning of its own is read as itself. -/
theorem readItems_plain {c : Char} (hplain : ¬isMeta c = true) (text : List Char) :
    readItems? (c :: text) = (.char c :: ·) <$> readItems? text := by
  have hne {d : Char} (hmeta : isMeta d = true) : c ≠ d := by
    rintro rfl
    exact hplain hmeta
  rw [readItems?, if_neg hplain]
  · exact hne rfl
  · exact hne rfl
  · exact fun _ hdot _ => hne rfl hdot
  · exact hne rfl
  · exact fun _ _ hescape _ => hne rfl hescape

/-- By induction on the tokens, each of which is read as its item. -/
theorem readItems_expression (tokens : List Token) :
    readItems? (tokens.flatMap Token.expression ++ ['$']) =
      some (tokens.map Token.item ++ [.finish]) := by
  induction tokens with
  | nil => rfl
  | cons token tokens ih =>
    rw [List.flatMap_cons, List.append_assoc, List.map_cons, List.cons_append]
    cases token with
    | anyRun =>
      show readItems? ('.' :: '*' :: (tokens.flatMap Token.expression ++ ['$'])) = _
      rw [readItems?, ih]
      rfl
    | anyOne =>
      show readItems? ('.' :: (tokens.flatMap Token.expression ++ ['$'])) = _
      rw [readItems?, ih]
      · rfl
      · exact head_expression tokens
    | literal c =>
      rw [Token.expression]
      split
      · rename_i hmeta
        show readItems? ('\\' :: c :: (tokens.flatMap Token.expression ++ ['$'])) = _
        rw [readItems?, if_pos hmeta, ih]
        rfl
      · rename_i hplain
        show readItems? (c :: (tokens.flatMap Token.expression ++ ['$'])) = _
        rw [readItems_plain hplain, ih]
        rfl

/-- **The expression that a pattern writes.** -/
theorem read_expression (pattern : Pattern) : Expression.read? pattern.expression.toList =
    some ⟨true, .start :: pattern.tokens.map Token.item ++ [.finish]⟩ := by
  have htext : pattern.expression.toList =
      '(' :: '?' :: 's' :: ')' :: '^' :: (pattern.tokens.flatMap Token.expression ++ ['$']) := by
    simp [expression]
  rw [htext, Expression.read?, readItems?, readItems_expression]
  rfl

example :
    (Pattern.mk "1.5_%" [.literal '1', .literal '.', .literal '5', .anyOne, .anyRun]).expression =
      "(?s)^1\\.5..*$" := by decide

/-- By induction on the tokens: the last anchor leaves nothing behind what they match. -/
theorem matches_items (tokens : List Token) (before text after : List Char) :
    Matches true (tokens.map Token.item ++ [.finish]) before text after ↔
      after = [] ∧ covers tokens text = true := by
  induction tokens generalizing before text with
  | nil =>
    rw [List.map_nil, List.nil_append, Expression.matches_finish, Expression.matches_nil]
    cases text with
    | nil => exact ⟨fun h => ⟨h.2.1, rfl⟩, fun h => ⟨rfl, h.1, rfl⟩⟩
    | cons c text => simp [covers_nil_cons]
  | cons token tokens ih =>
    have hdot (c : Char) : Expression.Dot true c := .inl rfl
    cases token with
    | anyRun =>
      show Matches true (.dotStar :: (tokens.map Token.item ++ [.finish])) before text after ↔ _
      rw [Expression.matches_dotStar, covers_anyRun_iff]
      constructor
      · rintro ⟨skipped, rest, htext, -, h⟩
        exact ⟨((ih _ rest).1 h).1, skipped, rest, htext, ((ih _ rest).1 h).2⟩
      · rintro ⟨hafter, skipped, rest, htext, h⟩
        exact ⟨skipped, rest, htext, fun c _ => hdot c, (ih _ rest).2 ⟨hafter, h⟩⟩
    | anyOne =>
      show Matches true (.dot :: (tokens.map Token.item ++ [.finish])) before text after ↔ _
      cases text with
      | nil => simp [Expression.matches_dot, covers_cons_nil]
      | cons c text => simp [Expression.matches_dot, ih, hdot, covers_anyOne, and_assoc]
    | literal d =>
      show Matches true (.char d :: (tokens.map Token.item ++ [.finish])) before text after ↔ _
      cases text with
      | nil => simp [Expression.matches_char, covers_cons_nil]
      | cons c text =>
        simp [Expression.matches_char, ih, covers_literal, and_assoc, and_left_comm,
          eq_comm (a := d)]

/-- **The keys in which it is found.** The first anchor leaves nothing in front of what is
matched. -/
theorem finds_expression (pattern : Pattern) (key : Key) :
    ∃ expression, Expression.read? pattern.expression.toList = some expression ∧
      (expression.Finds key.text.toList ↔ pattern.accepts key = true) := by
  refine ⟨_, read_expression pattern, ?_⟩
  simp only [Expression.Finds, List.cons_append, Expression.matches_start, matches_items,
    List.reverse_eq_nil_iff]
  constructor
  · rintro ⟨before, part, after, htext, rfl, rfl, hcovers⟩
    rw [List.nil_append, List.append_nil] at htext
    rwa [accepts, htext]
  · exact fun haccepts => ⟨[], _, [], (List.append_nil _).symm, rfl, rfl, haccepts⟩

end Pattern
end RecordCache
