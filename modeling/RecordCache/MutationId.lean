import RecordCache.Text.Decimal

/-!
# Mutation identifiers

The identifier of the mutation that wrote a record: 128 bits, written as 32 lower-case hexadecimal
digits in groups of 8, 4, 4, 4 and 12 between hyphens.

* `MutationId.text` writes an identifier;
* `MutationId.parse?` reads it in this form, without hyphens, in braces or with its scheme in
  front, in either case.
-/

namespace RecordCache

/-- An identifier: the values of its 32 hexadecimal digits. -/
structure MutationId where
  digits : List (Fin 16)
  length_digits : digits.length = 32
  deriving DecidableEq

namespace MutationId

instance : Inhabited MutationId := ⟨⟨List.replicate 32 0, List.length_replicate⟩⟩

/-- The lengths of the groups of digits. -/
def groups : List Nat := [8, 4, 4, 4, 12]

/-- Puts a hyphen after each group but the last. -/
def hyphenate : List Nat → List Char → List Char
  | [], digits => digits
  | [_], digits => digits
  | n :: lengths, digits => digits.take n ++ '-' :: hyphenate lengths (digits.drop n)

/-- The hyphenated form. -/
def text (id : MutationId) : String :=
  String.ofList (hyphenate groups (id.digits.map fun d => Text.hexDigit d.val))

/-- The digit of a character. -/
def digit? (c : Char) : Option (Fin 16) :=
  (Text.hexValue? c).bind fun d => if h : d < 16 then some ⟨d, h⟩ else none

/-- Reads 32 digits. -/
def ofDigits? (digits : List Char) : Option MutationId := do
  let digits ← digits.mapM digit?
  if h : digits.length = 32 then some ⟨digits, h⟩ else none

/-- Drops the hyphen after each group but the last. -/
def dehyphenate? : List Nat → List Char → Option (List Char)
  | [], text => some text
  | [_], text => some text
  | n :: lengths, text =>
    match text.drop n with
    | '-' :: rest => (dehyphenate? lengths rest).map (text.take n ++ ·)
    | _ => none

/-- Reads the hyphenated form. -/
def ofHyphenated? (text : List Char) : Option MutationId :=
  (dehyphenate? groups text).bind ofDigits?

/-- The scheme that may stand in front of the hyphenated form. -/
def scheme : List Char := ['u', 'r', 'n', ':', 'u', 'u', 'i', 'd', ':']

/-- What follows the scheme, which is read in either case. -/
def afterScheme? (text : List Char) : Option (List Char) :=
  if (text.take scheme.length).map Char.toLower = scheme then some (text.drop scheme.length)
  else none

/-- What stands between braces. -/
def insideBraces? : List Char → Option (List Char)
  | '\x7b' :: rest => if rest.getLast? = some '\x7d' then some rest.dropLast else none
  | _ => none

/-- Reads an identifier in any of its forms. -/
def parse? (text : String) : Option MutationId :=
  let chars := text.toList
  match afterScheme? chars, insideBraces? chars with
  | some rest, _ => ofHyphenated? rest
  | none, some inside => ofHyphenated? inside
  | none, none => (ofDigits? chars).orElse fun _ => ofHyphenated? chars

end MutationId
end RecordCache
