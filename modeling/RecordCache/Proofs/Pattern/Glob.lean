import Mathlib.Data.List.TakeWhile
import RecordCache.Pattern
import RecordCache.Pattern.Glob

/-!
# Patterns and their globs

A pattern and the glob that it is written as match the same texts. Both matchers keep, for each
suffix of one side, whether it matches what has been read of the other; what they say of a suffix is
what they say when they are given that suffix alone.

* `Glob.accepts_run`, `accepts_one`, `accepts_bracket`, `accepts_literal`: the matcher of globs, one
  piece at a time;
* `Pattern.covers` and its equations: the matcher of tokens, one token at a time;
* `Pattern.accepts_glob`: they agree;
* `Glob.Serves` says that the table finds a key with a glob as it is meant, and `serves_of_plain`
  that it does when no text has a character that a comparison stops at or mistakes.
-/

namespace RecordCache
namespace Glob

theorem advance_cons (c d : Char) (glob : List Char) (matched : Bool) (row : List Bool) :
    ∃ front, advance c (d :: glob) (matched :: row) = front :: advance c glob row := by
  generalize hglob : d :: glob = suffix
  generalize hrow : matched :: row = entries
  fun_cases advance c suffix entries
  case case5 h => exact (h d glob matched row hglob.symm hrow.symm).elim
  all_goals
    cases hglob
    cases hrow
    exact ⟨_, rfl⟩

/-- Behind its first entry a row says of the suffixes what the row of the rest says of them. -/
theorem rows_cons (d : Char) (glob text : List Char) :
    rows (d :: glob) text = accepts (d :: glob) text :: rows glob text := by
  have hrow : ∃ front, rows (d :: glob) text = front :: rows glob text := by
    induction text with
    | nil => exact ⟨_, rfl⟩
    | cons c text ih =>
      obtain ⟨matched, hmatched⟩ := ih
      rw [rows, hmatched]
      exact advance_cons c d glob matched _
  obtain ⟨front, hfront⟩ := hrow
  rw [accepts, hfront]
  rfl

section Pieces

variable (glob text : List Char) (c d : Char)

theorem accepts_nil_cons : accepts [] (c :: text) = false := by
  rw [accepts, rows]
  cases rows [] text <;> rfl

/-- Only asterisks match the empty text. -/
theorem accepts_cons_nil : accepts (d :: glob) [] = (d = '*' && accepts glob []) := rfl

/-- An asterisk matches nothing, or one more character. -/
theorem accepts_run :
    accepts ('*' :: glob) (c :: text) =
      (accepts ('*' :: glob) text || accepts glob (c :: text)) := by
  rw [accepts, rows, rows_cons, advance]
  rfl

/-- A question mark matches one character. -/
theorem accepts_one : accepts ('?' :: glob) (c :: text) = accepts glob text := by
  rw [accepts, rows, rows_cons, advance]
  rfl

/-- A character in brackets matches itself. -/
theorem accepts_bracket :
    accepts ('[' :: d :: ']' :: glob) (c :: text) = (c = d && accepts glob text) := by
  rw [accepts, rows, rows_cons, rows_cons, rows_cons, advance, List.headD_cons,
    List.getElem?_cons_succ, List.getElem?_cons_succ, accepts, List.headD_eq_head?_getD,
    List.head?_eq_getElem?]

/-- Any other character matches itself. -/
theorem accepts_literal (h : isSpecial d = false) :
    accepts (d :: glob) (c :: text) = (c = d && accepts glob text) := by
  simp only [isSpecial, Bool.or_eq_false_iff, decide_eq_false_iff_not] at h
  rw [accepts, rows, rows_cons, advance]
  · rfl
  · exact h.1.1
  · exact h.1.2
  · rintro d' glob' rfl
    exact absurd rfl h.2

end Pieces

/-- What stands in front of the first special character is in front of every text that matches. -/
theorem literalPart_isPrefixOf {glob text : List Char} (h : accepts glob text = true) :
    (literalPart glob).isPrefixOf text = true := by
  induction glob generalizing text with
  | nil => rfl
  | cons d glob ih =>
    rw [literalPart, List.takeWhile_cons]
    split
    · rename_i hliteral
      have hplain : isSpecial d = false := by
        simpa using (Bool.and_eq_true_iff.1 hliteral).1
      cases text with
      | nil =>
        rw [accepts_cons_nil] at h
        have hd : d = '*' := of_decide_eq_true (Bool.and_eq_true_iff.1 h).1
        rw [hd] at hplain
        cases hplain
      | cons c text =>
        rw [accepts_literal _ _ _ _ hplain] at h
        obtain ⟨hc, hrest⟩ := Bool.and_eq_true_iff.1 h
        rw [List.isPrefixOf, of_decide_eq_true hc, beq_self_eq_true, Bool.true_and]
        exact ih hrest
    · rfl

/-- The table serves a glob for a key as it is meant: it does not refuse the comparison, and finds
the key if the glob matches it. -/
structure Serves (glob : String) (key : Key) : Prop where
  compares : (isTooLong glob && compares glob key) = false
  selects : selects glob key = accepts glob.toList key.text.toList

/-- A comparison sees the text as it is. -/
def IsPlain (text : List Char) : Prop := ∀ c ∈ text, endsComparison c = false ∧ comparedChar c = c

instance (text : List Char) : Decidable (IsPlain text) :=
  List.decidableBAll (fun c => endsComparison c = false ∧ comparedChar c = c) text

theorem IsPlain.compared_eq {text : List Char} (h : IsPlain text) : compared text = text := by
  have hwhole : (text.takeWhile fun c => !endsComparison c) = text :=
    List.takeWhile_eq_self_iff.2 fun c hc => by rw [(h c hc).1]; rfl
  rw [compared, hwhole]
  exact (List.map_congr_left fun c hc => (h c hc).2).trans (List.map_id' text)

/-- A plain glob finds the plain keys that it matches. -/
theorem selects_of_plain {glob : String} {key : Key} (hglob : IsPlain glob.toList)
    (hkey : IsPlain key.text.toList) :
    selects glob key = accepts glob.toList key.text.toList := by
  rw [selects, hglob.compared_eq, hkey.compared_eq]
  cases haccepts : accepts glob.toList key.text.toList with
  | false => exact Bool.and_false _
  | true => rw [literalPart_isPrefixOf haccepts, Bool.and_true]

/-- A plain glob that is short enough is served for plain keys. -/
theorem serves_of_plain {glob : String} {key : Key} (hshort : isTooLong glob = false)
    (hglob : IsPlain glob.toList) (hkey : IsPlain key.text.toList) : Serves glob key :=
  ⟨by rw [hshort, Bool.false_and], selects_of_plain hglob hkey⟩

end Glob

namespace Pattern

/-- Whether the tokens match the whole text. -/
def covers (tokens : List Token) (text : List Char) : Bool := (rows tokens text).headD false

theorem rows_nil (tokens : List Token) : rows tokens [] = [covers tokens []] := by
  have hrow : ∃ last, rows tokens [] = [last] := by
    induction tokens with
    | nil => exact ⟨true, rfl⟩
    | cons token tokens ih =>
      obtain ⟨last, hlast⟩ := ih
      refine ⟨token = .anyRun && last, ?_⟩
      show advance token [] (rows tokens []) = _
      rw [hlast, advance]
  obtain ⟨last, hlast⟩ := hrow
  rw [covers, hlast]
  rfl

/-- Behind its first entry a row says of the suffixes what the row of the rest says of them. -/
theorem rows_cons (tokens : List Token) (c : Char) (text : List Char) :
    rows tokens (c :: text) = covers tokens (c :: text) :: rows tokens text := by
  have hrow : ∃ front, rows tokens (c :: text) = front :: rows tokens text := by
    induction tokens with
    | nil => exact ⟨false, rfl⟩
    | cons token tokens ih =>
      obtain ⟨front, hfront⟩ := ih
      show ∃ front', advance token (c :: text) (rows tokens (c :: text)) = _
      rw [hfront]
      cases token <;> exact ⟨_, rfl⟩
  obtain ⟨front, hfront⟩ := hrow
  rw [covers, hfront]
  rfl

section Tokens

variable (tokens : List Token) (token : Token) (text : List Char) (c d : Char)

theorem covers_nil_cons : covers [] (c :: text) = false := rfl

/-- Only any runs match the empty text. -/
theorem covers_cons_nil : covers (token :: tokens) [] = (token = .anyRun && covers tokens []) := by
  show (advance token [] (rows tokens [])).headD false = _
  rw [rows_nil, advance]
  rfl

/-- Any run matches nothing, or one more character. -/
theorem covers_anyRun :
    covers (.anyRun :: tokens) (c :: text) =
      (covers tokens (c :: text) || covers (.anyRun :: tokens) text) := by
  show (advance .anyRun (c :: text) (rows tokens (c :: text))).headD false = _
  rw [rows_cons]
  rfl

theorem covers_anyOne : covers (.anyOne :: tokens) (c :: text) = covers tokens text := by
  show (advance .anyOne (c :: text) (rows tokens (c :: text))).headD false = _
  rw [rows_cons]
  rfl

theorem covers_literal :
    covers (.literal d :: tokens) (c :: text) = (d = c && covers tokens text) := by
  show (advance (.literal d) (c :: text) (rows tokens (c :: text))).headD false = _
  rw [rows_cons]
  rfl

end Tokens

/-- By induction on the tokens; for any run, also on the text. -/
theorem accepts_flatMap_glob (tokens : List Token) (text : List Char) :
    Glob.accepts (tokens.flatMap Token.glob) text = covers tokens text := by
  induction tokens generalizing text with
  | nil =>
    cases text with
    | nil => rfl
    | cons c text => rw [List.flatMap_nil, Glob.accepts_nil_cons, covers_nil_cons]
  | cons token tokens ih =>
    rw [List.flatMap_cons]
    cases token with
    | anyRun =>
      show Glob.accepts ('*' :: tokens.flatMap Token.glob) text = _
      induction text with
      | nil =>
        rw [Glob.accepts_cons_nil, covers_cons_nil, ih]
        rfl
      | cons c text ihText =>
        rw [Glob.accepts_run, ihText, ih, covers_anyRun, Bool.or_comm]
    | anyOne =>
      show Glob.accepts ('?' :: tokens.flatMap Token.glob) text = _
      cases text with
      | nil =>
        rw [Glob.accepts_cons_nil, covers_cons_nil]
        rfl
      | cons c text => rw [Glob.accepts_one, ih, covers_anyOne]
    | literal d =>
      rw [Token.glob]
      split
      · -- a character that the glob reads as a sign is put in brackets
        show Glob.accepts ('[' :: d :: ']' :: tokens.flatMap Token.glob) text = _
        cases text with
        | nil =>
          rw [Glob.accepts_cons_nil, covers_cons_nil]
          rfl
        | cons c text =>
          rw [Glob.accepts_bracket, ih, covers_literal, decide_eq_decide.2 eq_comm]
      · rename_i hplain
        show Glob.accepts (d :: tokens.flatMap Token.glob) text = _
        cases text with
        | nil =>
          rw [Glob.accepts_cons_nil, covers_cons_nil, decide_eq_false fun h => hplain (.inl h)]
          rfl
        | cons c text =>
          have hspecial : Glob.isSpecial d = false := by
            simpa [Glob.isSpecial, and_assoc] using hplain
          rw [Glob.accepts_literal _ _ _ _ hspecial, ih, covers_literal, decide_eq_decide.2 eq_comm]

/-- **Patterns as globs.** A pattern and its glob match the same keys. -/
theorem accepts_glob (pattern : Pattern) (key : Key) :
    Glob.accepts pattern.glob.toList key.text.toList = pattern.accepts key := by
  rw [glob, String.toList_ofList]
  exact accepts_flatMap_glob pattern.tokens key.text.toList

end Pattern
end RecordCache
