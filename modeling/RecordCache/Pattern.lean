import RecordCache.Error

/-!
# Key patterns

A pattern selects keys: `%` stands for any text, `_` for any one character, and a backslash in
front of `%`, `_` or a backslash for that character. A pattern matches whole keys.

* `Pattern.parse` reads a pattern and says where it goes wrong;
* `Pattern.fits` bounds the memory that a pattern may take;
* `Pattern.accepts` matches a key: from the last token to the first it keeps, for each suffix of
  the key, whether the tokens so far match it;
* `Pattern.expression` writes the pattern as a regular expression, and `Pattern.glob` in the glob
  language of `RecordCache.Pattern.Glob`.
-/

namespace RecordCache

/-- A piece of a pattern. -/
inductive Token
  | literal (c : Char)
  | anyOne
  | anyRun
  deriving DecidableEq, Inhabited, Repr

/-- A pattern with the text it was read from. -/
structure Pattern where
  source : String
  tokens : List Token
  deriving DecidableEq, Inhabited

namespace Pattern

/-- The bytes that a machine which runs through keys takes: those of a machine for no tokens, and
those that each kind of token adds. A literal costs as much for each byte of its character. -/
structure MachineCost where
  empty : Nat
  anyOne : Nat
  anyRun : Nat
  literalByte : Nat
  deriving DecidableEq, Inhabited

/-- The bytes that a token adds. -/
def MachineCost.token (cost : MachineCost) : Token → Nat
  | .literal c => cost.literalByte * c.utf8Size
  | .anyOne => cost.anyOne
  | .anyRun => cost.anyRun

/-- The bytes that the machine for some tokens takes. -/
def MachineCost.total (cost : MachineCost) (tokens : List Token) : Nat :=
  tokens.foldl (fun size token => size + cost.token token) cost.empty

/-- The cost of the machine that runs through keys from the front. -/
def forwardCost : MachineCost := ⟨192, 416, 456, 32⟩

/-- The cost of the machine that runs through keys from the back. It cannot share what characters of
several bytes have in common, since they differ in their first byte. -/
def backwardCost : MachineCost := ⟨128, 964, 1004, 32⟩

/-- Neither machine of a pattern may take more bytes than this. -/
def maxMachineSize : Nat := 10485760

/-- Whether both machines for the tokens keep to the limit. -/
def fits (tokens : List Token) : Bool :=
  forwardCost.total tokens ≤ maxMachineSize && backwardCost.total tokens ≤ maxMachineSize

/-- Whether a backslash may stand in front of the character. -/
def isEscapable (c : Char) : Bool := c = '%' || c = '_' || c = '\\'

/-- Reads tokens; `position` is the number of characters read before. -/
def scan (source : String) (position : Nat) : List Char → Except PatternError (List Token)
  | [] => .ok []
  | ['\\'] => .error (.danglingEscape source)
  | '\\' :: c :: rest =>
    if isEscapable c then (.literal c :: ·) <$> scan source (position + 2) rest
    else .error (.invalidEscape source position c)
  | c :: rest =>
    let token := if c = '%' then .anyRun else if c = '_' then .anyOne else .literal c
    (token :: ·) <$> scan source (position + 1) rest

/-- Reads a pattern. -/
def parse (source : String) : Except PatternError Pattern := do
  let tokens ← scan source 0 source.toList
  if fits tokens then return ⟨source, tokens⟩
  else throw (.tooLarge source "Compiled regex exceeds size limit of 10485760 bytes.")

/-- Puts a token in front of tokens: `row` says which suffixes of the key those match, and the
result which suffixes the token and those match. -/
def advance (token : Token) : List Char → List Bool → List Bool
  | _, [] => []
  | [], matched :: _ => [token = .anyRun && matched]
  | c :: key, matched :: row =>
    let rest := advance token key row
    let front :=
      match token with
      | .literal d => d = c && row.headD false
      | .anyOne => row.headD false
      | .anyRun => matched || rest.headD false
    front :: rest

/-- Which suffixes of the key no tokens match: the empty one alone. -/
def lastRow (key : List Char) : List Bool := key.map (fun _ => false) ++ [true]

/-- Which suffixes of the key the tokens match. -/
def rows (tokens : List Token) (key : List Char) : List Bool :=
  tokens.foldr (fun token row => advance token key row) (lastRow key)

/-- Whether the pattern matches the whole key. -/
def accepts (pattern : Pattern) (key : Key) : Bool :=
  (rows pattern.tokens key.text.toList).headD false

/-- Whether the pattern is one that matches every key: any runs and nothing else. -/
def acceptsAll (pattern : Pattern) : Bool :=
  !pattern.tokens.isEmpty && pattern.tokens.all fun token => token = .anyRun

/-- Whether a regular expression gives the character a meaning of its own, or keeps it for one. -/
def isMeta (c : Char) : Bool :=
  ['\\', '.', '+', '*', '?', '(', ')', '|', '[', ']', '{', '}', '^', '$', '#', '&', '-',
    '~'].contains c

/-- The token in a regular expression. -/
def Token.expression : Token → List Char
  | .anyRun => ['.', '*']
  | .anyOne => ['.']
  | .literal c => if isMeta c then ['\\', c] else [c]

/-- The pattern as a regular expression for whole keys, in which a dot stands for a line break
too. -/
def expression (pattern : Pattern) : String :=
  "(?s)^" ++ String.ofList (pattern.tokens.flatMap Token.expression) ++ "$"

/-- The token in the glob language, whose own special characters go into brackets. -/
def Token.glob : Token → List Char
  | .anyRun => ['*']
  | .anyOne => ['?']
  | .literal c => if c = '*' ∨ c = '?' ∨ c = '[' then ['[', c, ']'] else [c]

/-- The pattern in the glob language. -/
def glob (pattern : Pattern) : String := String.ofList (pattern.tokens.flatMap Token.glob)

end Pattern
end RecordCache
