import RecordCache.Key

/-!
# Globs

The glob language of the table: `*` stands for any text, `?` for any one character, `[c]` for the
character `c`, and any other character for itself. A glob matches whole texts.

* `Glob.accepts` reads the text from its end and keeps, for each suffix of the glob, whether it
  matches the part of the text read;
* `Glob.selects` is how the table applies a glob to a key. What stands in front of the first special
  character is looked up as it is written. The rest of the comparison ends at the first null
  character of either, and takes the noncharacters U+FFFE and U+FFFF for the replacement character.
  `Glob.compares` says for which keys there is such a comparison, for which a glob may not be too
  long.
-/

namespace RecordCache
namespace Glob

/-- Which suffixes of the glob match the empty text. -/
def lastRow : List Char → List Bool
  | [] => [true]
  | c :: glob =>
    let rest := lastRow glob
    (c = '*' && rest.headD false) :: rest

/-- Puts a character in front of the part of the text read: `row` says which suffixes of the glob
match that part. -/
def advance (c : Char) : List Char → List Bool → List Bool
  | '*' :: glob, matched :: row =>
    let rest := advance c glob row
    (matched || rest.headD false) :: rest
  | '?' :: glob, _ :: row => row.headD false :: advance c glob row
  | '[' :: d :: ']' :: glob, _ :: row =>
    -- `row` starts behind the bracket, so that the suffix behind `]` comes third.
    (c = d && (row[2]?).getD false) :: advance c (d :: ']' :: glob) row
  | d :: glob, _ :: row => (c = d && row.headD false) :: advance c glob row
  | _, _ => [false]

/-- Which suffixes of the glob match the text. -/
def rows (glob : List Char) : List Char → List Bool
  | [] => lastRow glob
  | c :: text => advance c glob (rows glob text)

/-- Whether the glob matches the whole text. -/
def accepts (glob text : List Char) : Bool := (rows glob text).headD false

/-- Whether the character is special in a glob. -/
def isSpecial (c : Char) : Bool := c = '*' || c = '?' || c = '['

/-- Whether a comparison ends at the character. -/
def endsComparison (c : Char) : Bool := c = '\x00'

/-- The character that a comparison takes a character for. -/
def comparedChar (c : Char) : Char :=
  if c = '\uFFFE' || c = '\uFFFF' then '\uFFFD' else c

/-- What a comparison sees of a text. -/
def compared (text : List Char) : List Char :=
  (text.takeWhile fun c => !endsComparison c).map comparedChar

/-- What stands in front of the first special character of a glob. -/
def literalPart (glob : List Char) : List Char :=
  glob.takeWhile fun c => !isSpecial c && !endsComparison c

/-- Whether a glob asks for no more than its literal part at the front. -/
def isStretch (glob : List Char) : Bool :=
  !(literalPart glob).isEmpty && compared (glob.drop (literalPart glob).length) = ['*']

/-- Whether finding a key with the glob takes a comparison: the literal part is in front of it and
does not decide the matter. -/
def compares (glob : String) (key : Key) : Bool :=
  (literalPart glob.toList).isPrefixOf key.text.toList && !isStretch glob.toList

/-- The bytes that a glob may have for a comparison. -/
def maxBytes : Nat := 50000

/-- Whether the glob is too long to be compared. -/
def isTooLong (glob : String) : Bool := maxBytes < glob.utf8ByteSize

/-- Whether the table finds a key with the glob. -/
def selects (glob : String) (key : Key) : Bool :=
  (literalPart glob.toList).isPrefixOf key.text.toList &&
    accepts (compared glob.toList) (compared key.text.toList)

end Glob
end RecordCache
