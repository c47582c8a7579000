import RecordCache.Pattern

/-!
# The grammar of patterns

From left to right the text of a pattern is a sequence of signs, each an ordinary character or a
backslash with the character behind it. Only a backslash at the end may be left over. A text has one
reading of this kind, and what the parser makes of it depends on the reading alone: the first escape
of a character that needs none is reported where its backslash stands, a backslash left over is
reported if there is no such escape, and any other text is read as the tokens that spell it.

* `Pattern.Sign`, `Pattern.Reading`: the signs of a text, with `Reading.text_ofText` and
  `ofText_text` for the one reading that each text has;
* `Token.text` spells a token, and `Pattern.scan_spelled` scans what stands behind spelled tokens;
* `Pattern.parse_spelled`, `parse_wrong`, `parse_dangling`: the three kinds of texts, and
  `spelled_of_parse`: the tokens that are read spell the text;
* `Pattern.parse_follows_grammar`: what is reported, and what is read.
-/

namespace RecordCache

/-- How a token is written: characters that would be taken for something else are escaped. -/
def Token.text : Token → List Char
  | .anyRun => ['%']
  | .anyOne => ['_']
  | .literal c => if Pattern.isEscapable c then ['\\', c] else [c]

namespace Pattern

/-- What the text of a pattern is made of: an ordinary character, or a backslash and the character
behind it. -/
inductive Sign
  | plain (c : Char) (ordinary : c ≠ '\\')
  | escape (c : Char)

namespace Sign

/-- The characters of a sign. -/
def text : Sign → List Char
  | plain c _ => [c]
  | escape c => ['\\', c]

/-- The sign does not escape a character that needs no escape. -/
def IsRight : Sign → Prop
  | plain _ _ => True
  | escape c => isEscapable c = true

/-- The token that a sign stands for. -/
def token : Sign → Token
  | plain c _ => if c = '%' then .anyRun else if c = '_' then .anyOne else .literal c
  | escape c => .literal c

@[simp] theorem isRight_escape (c : Char) : (escape c).IsRight ↔ isEscapable c = true := Iff.rfl

/-- The sign is how its token is written. -/
theorem text_token {sign : Sign} (h : sign.IsRight) : sign.token.text = sign.text := by
  cases sign with
  | plain c ordinary =>
    by_cases hrun : c = '%'
    · simp [token, text, Token.text, hrun]
    by_cases hone : c = '_'
    · simp [token, text, Token.text, hone]
    simp [token, text, Token.text, isEscapable, hrun, hone, ordinary]
  | escape c =>
    have hescapable : isEscapable c = true := h
    simp [token, text, Token.text, hescapable]

end Sign

/-- The signs of a text, and whether a backslash is left over behind them. -/
structure Reading where
  signs : List Sign
  dangling : Bool

namespace Reading

/-- The text that is read so. -/
def text (reading : Reading) : List Char :=
  reading.signs.flatMap Sign.text ++ if reading.dangling then ['\\'] else []

/-- The reading with one sign more in front. -/
def cons (sign : Sign) (reading : Reading) : Reading :=
  ⟨sign :: reading.signs, reading.dangling⟩

/-- How a text is read. -/
def ofText : List Char → Reading
  | [] => ⟨[], false⟩
  | c :: rest =>
    if h : c = '\\' then
      match rest with
      | [] => ⟨[], true⟩
      | d :: rest => cons (.escape d) (ofText rest)
    else cons (.plain c h) (ofText rest)

theorem text_cons (sign : Sign) (reading : Reading) :
    (cons sign reading).text = sign.text ++ reading.text := by
  rw [text, cons, List.flatMap_cons, List.append_assoc]
  rfl

/-- A sign in front of a text is the first one that is read. -/
theorem ofText_append (sign : Sign) (rest : List Char) :
    ofText (sign.text ++ rest) = cons sign (ofText rest) := by
  cases sign with
  | plain c ordinary =>
    show ofText (c :: rest) = _
    rw [ofText.eq_def]
    exact dif_neg ordinary
  | escape c => rfl

/-- Every text is read. -/
theorem text_ofText (text : List Char) : (ofText text).text = text := by
  induction text using ofText.induct with
  | case1 => rfl
  | case2 => rfl
  | case3 d rest ih =>
    have hread : ofText ('\\' :: d :: rest) = cons (.escape d) (ofText rest) :=
      ofText_append (.escape d) rest
    rw [hread, text_cons, ih]
    rfl
  | case4 c rest h ih =>
    have hread : ofText (c :: rest) = cons (.plain c h) (ofText rest) :=
      ofText_append (.plain c h) rest
    rw [hread, text_cons, ih]
    rfl

/-- A text is read in one way only. By induction on the signs. -/
theorem ofText_text (reading : Reading) : ofText reading.text = reading := by
  obtain ⟨signs, dangling⟩ := reading
  induction signs with
  | nil => cases dangling <;> rfl
  | cons sign signs ih =>
    have htext : (⟨sign :: signs, dangling⟩ : Reading).text =
        sign.text ++ (⟨signs, dangling⟩ : Reading).text := text_cons sign ⟨signs, dangling⟩
    rw [htext, ofText_append, ih]
    rfl

/-- No sign escapes a character that needs no escape. -/
def IsRight (reading : Reading) : Prop := ∀ sign ∈ reading.signs, sign.IsRight

/-- The first wrong escape has its backslash at this position, behind signs that are right, and
this character behind the backslash. -/
def FirstWrong (reading : Reading) (position : Nat) (c : Char) : Prop :=
  ∃ before after, reading.signs = before ++ .escape c :: after ∧ (∀ sign ∈ before, sign.IsRight) ∧
    isEscapable c = false ∧ position = (before.flatMap Sign.text).length

end Reading

/-! ### Scanning signs -/

section Scan

variable (source : String) (position : Nat)

theorem scan_escape (c : Char) (rest : List Char) :
    scan source position ('\\' :: c :: rest) =
      if isEscapable c then (.literal c :: ·) <$> scan source (position + 2) rest
      else .error (.invalidEscape source position c) := by
  rw [scan]

theorem scan_plain {c : Char} (hordinary : c ≠ '\\') (rest : List Char) :
    scan source position (c :: rest) =
      (Sign.token (.plain c hordinary) :: ·) <$> scan source (position + 1) rest := by
  rw [scan]
  · rfl
  · simp [hordinary]
  · simp [hordinary]

/-- Spelled tokens are read as they are, and what stands behind them is read further on. -/
theorem scan_spelled (tokens : List Token) (rest : List Char) :
    scan source position (tokens.flatMap Token.text ++ rest) =
      (tokens ++ ·) <$> scan source (position + (tokens.flatMap Token.text).length) rest := by
  induction tokens generalizing position with
  | nil =>
    show scan source position rest = id <$> scan source position rest
    rw [id_map]
  | cons token tokens ih =>
    have hstep : scan source position (token.text ++ (tokens.flatMap Token.text ++ rest)) =
        (token :: ·) <$> scan source (position + token.text.length)
          (tokens.flatMap Token.text ++ rest) := by
      cases token with
      | anyRun => exact scan_plain source position (c := '%') (by decide) _
      | anyOne => exact scan_plain source position (c := '_') (by decide) _
      | literal c =>
        by_cases hescapable : isEscapable c = true
        · simp [Token.text, hescapable, scan_escape]
        -- What is written without a backslash is none of the three characters that need one.
        · have hordinary : c ≠ '\\' ∧ c ≠ '%' ∧ c ≠ '_' := by
            simp only [isEscapable, Bool.or_eq_true, decide_eq_true_eq, not_or] at hescapable
            exact ⟨hescapable.2, hescapable.1.1, hescapable.1.2⟩
          simp [Token.text, hescapable, scan_plain source position hordinary.1, Sign.token,
            hordinary]
    rw [List.flatMap_cons, List.append_assoc, hstep, ih, List.length_append, Nat.add_assoc]
    cases scan source (position + (token.text.length + (tokens.flatMap Token.text).length)) rest <;>
      rfl

end Scan

/-- Signs that are right are the spelling of their tokens. -/
theorem flatMap_text_token {signs : List Sign} (h : ∀ sign ∈ signs, sign.IsRight) :
    (signs.map Sign.token).flatMap Token.text = signs.flatMap Sign.text := by
  rw [List.flatMap_map, List.flatMap_def, List.flatMap_def]
  exact congrArg List.flatten (List.map_congr_left fun sign hsign => Sign.text_token (h sign hsign))

/-! ### Parsing a text -/

section Parse

variable {source : String} {signs : List Sign}

/-- What is reported of a pattern that takes too much memory. -/
def tooLarge (source : String) : PatternError :=
  .tooLarge source "Compiled regex exceeds size limit of 10485760 bytes."

/-- A text is read as the tokens that it spells, if these are not too many. -/
theorem parse_spelled {tokens : List Token} (h : tokens.flatMap Token.text = source.toList) :
    parse source = if fits tokens then .ok ⟨source, tokens⟩ else .error (tooLarge source) := by
  have hscan := scan_spelled source 0 tokens []
  rw [List.append_nil, h] at hscan
  have htokens : scan source 0 source.toList = .ok tokens := by
    rw [hscan, scan]
    exact congrArg Except.ok (List.append_nil tokens)
  rw [parse, htokens]
  rfl

/-- A wrong escape is reported if all signs in front of it are right. -/
theorem parse_wrong {c : Char} {rest : List Char} (hright : ∀ sign ∈ signs, sign.IsRight)
    (hwrong : isEscapable c = false)
    (h : signs.flatMap Sign.text ++ '\\' :: c :: rest = source.toList) :
    parse source = .error (.invalidEscape source (signs.flatMap Sign.text).length c) := by
  rw [← flatMap_text_token hright] at h ⊢
  rw [parse, ← h, scan_spelled, scan_escape, hwrong, Nat.zero_add]
  rfl

/-- A backslash at the end is reported if all signs in front of it are right. -/
theorem parse_dangling (hright : ∀ sign ∈ signs, sign.IsRight)
    (h : signs.flatMap Sign.text ++ ['\\'] = source.toList) :
    parse source = .error (.danglingEscape source) := by
  rw [← flatMap_text_token hright] at h
  rw [parse, ← h, scan_spelled]
  rfl

end Parse

namespace Reading

variable {source : String} {reading : Reading}

theorem FirstWrong.not_isRight {position : Nat} {c : Char} (h : reading.FirstWrong position c) :
    ¬reading.IsRight := by
  obtain ⟨before, after, hsigns, -, hwrong, -⟩ := h
  intro hright
  have hescape := hright (.escape c) (by simp [hsigns])
  rw [Sign.isRight_escape, hwrong] at hescape
  cases hescape

/-- Unless all signs are right, one of the wrong ones comes first. By induction on the signs. -/
theorem isRight_or_firstWrong (reading : Reading) :
    reading.IsRight ∨ ∃ position c, reading.FirstWrong position c := by
  obtain ⟨signs, dangling⟩ := reading
  induction signs with
  | nil => exact .inl (List.forall_mem_nil _)
  | cons sign signs ih =>
    by_cases hsign : sign.IsRight
    · rcases ih with hright | ⟨_, c, before, after, hsigns, hright, hwrong, -⟩
      · exact .inl (List.forall_mem_cons.2 ⟨hsign, hright⟩)
      · refine .inr ⟨_, c, sign :: before, after, ?_, List.forall_mem_cons.2 ⟨hsign, hright⟩,
          hwrong, rfl⟩
        exact congrArg (List.cons sign) hsigns
    · cases sign with
      | plain c ordinary => exact absurd trivial hsign
      | escape c =>
        rw [Sign.isRight_escape, Bool.not_eq_true] at hsign
        exact .inr ⟨_, c, [], signs, rfl, List.forall_mem_nil _, hsign, rfl⟩

theorem FirstWrong.parse_eq {position : Nat} {c : Char} (h : reading.FirstWrong position c)
    (htext : reading.text = source.toList) :
    parse source = .error (.invalidEscape source position c) := by
  obtain ⟨before, after, hsigns, hright, hwrong, rfl⟩ := h
  have hsource : before.flatMap Sign.text ++ '\\' :: c ::
      (after.flatMap Sign.text ++ if reading.dangling then ['\\'] else []) = source.toList := by
    rw [← htext, text, hsigns]
    simp [Sign.text]
  exact parse_wrong hright hwrong hsource

theorem IsRight.parse_eq (h : reading.IsRight) (htext : reading.text = source.toList) :
    if reading.dangling then parse source = .error (.danglingEscape source)
    else ∃ tokens : List Token, tokens.flatMap Token.text = source.toList ∧
      parse source = if fits tokens then .ok ⟨source, tokens⟩ else .error (tooLarge source) := by
  obtain ⟨signs, dangling⟩ := reading
  cases dangling with
  | true => exact parse_dangling h htext
  | false =>
    have hspelled : (signs.map Sign.token).flatMap Token.text = source.toList := by
      rw [flatMap_text_token h, ← htext]
      exact (List.append_nil _).symm
    exact ⟨signs.map Sign.token, hspelled, parse_spelled hspelled⟩

end Reading

/-- The tokens that are read spell the text. -/
theorem spelled_of_parse {source : String} {pattern : Pattern} (h : parse source = .ok pattern) :
    pattern.tokens.flatMap Token.text = source.toList := by
  have htext : (Reading.ofText source.toList).text = source.toList := Reading.text_ofText _
  rcases (Reading.ofText source.toList).isRight_or_firstWrong with hright | ⟨_, _, hwrong⟩
  · have hparse := hright.parse_eq htext
    split at hparse
    · cases h.symm.trans hparse
    · obtain ⟨tokens, hspelled, hparse⟩ := hparse
      rw [h] at hparse
      split at hparse <;> cases hparse
      exact hspelled
  · cases h.symm.trans (hwrong.parse_eq htext)

/-- **Patterns that are read.** The text of a pattern has one reading as signs. The first wrong
escape, if there is one, is reported with its position and character; if there is none, a backslash
left over at the end is reported; and if there is none of these either, the text is read as tokens
that spell it, unless they take too much memory. -/
theorem parse_follows_grammar (source : String) :
    ∃ reading : Reading, (∀ other : Reading, other.text = source.toList ↔ other = reading) ∧
      (∀ pattern position c, parse source = .error (.invalidEscape pattern position c) ↔
        pattern = source ∧ reading.FirstWrong position c) ∧
      (∀ pattern, parse source = .error (.danglingEscape pattern) ↔
        pattern = source ∧ reading.IsRight ∧ reading.dangling = true) ∧
      (reading.IsRight → reading.dangling = false →
        ∃ tokens : List Token, tokens.flatMap Token.text = source.toList ∧
          parse source =
            if fits tokens then .ok ⟨source, tokens⟩ else .error (tooLarge source)) := by
  have htext : (Reading.ofText source.toList).text = source.toList := Reading.text_ofText _
  refine ⟨.ofText source.toList, fun other => ?_, ?_⟩
  · constructor
    · intro hother
      rw [← hother, Reading.ofText_text]
    · rintro rfl
      exact htext
  generalize Reading.ofText source.toList = reading at htext
  rcases reading.isRight_or_firstWrong with hright | ⟨position, c, hwrong⟩
  · -- every escape is right: what is reported is the end of the text or the memory it takes
    have hnot {position : Nat} {c : Char} : ¬reading.FirstWrong position c :=
      fun hwrong => hwrong.not_isRight hright
    have hparse := hright.parse_eq htext
    cases hdangling : reading.dangling with
    | true =>
      rw [hdangling, if_pos rfl] at hparse
      refine ⟨fun pattern position c => ?_, fun pattern => ?_, fun _ hnone => by cases hnone⟩
      · simp [hparse, hnot]
      · simp [hparse, hright, eq_comm (a := pattern)]
    | false =>
      rw [hdangling, if_neg Bool.false_ne_true] at hparse
      refine ⟨fun pattern position c => ?_, fun pattern => ?_, fun _ _ => hparse⟩
      all_goals
        obtain ⟨tokens, -, hparse⟩ := hparse
        rw [hparse]
        split <;> simp [tooLarge, hnot]
  · -- the first wrong escape is reported before anything else
    have hparse := hwrong.parse_eq htext
    refine ⟨fun pattern position' c' => ?_, fun pattern => ?_, fun hright => ?_⟩
    · constructor
      · intro hreported
        cases hparse.symm.trans hreported
        exact ⟨rfl, hwrong⟩
      · rintro ⟨rfl, hother⟩
        exact hother.parse_eq htext
    · simp [hparse, hwrong.not_isRight]
    · exact absurd hright hwrong.not_isRight

/-- A backslash that is escaped leaves the next one to escape what needs no escape. -/
example : parse "%\\\\\\d\\" = .error (.invalidEscape "%\\\\\\d\\" 3 'd') := by
  rfl

end Pattern
end RecordCache
