import RecordCache.Key

/-!
# Composite keys

The key of an entity is written `Type:v₁+v₂+…`. A backslash in front of a character makes it
stand for itself: in the type `\` and `:` are written so, in a value `\` and `+`.

* `Key.compose` writes a type name and a list of values;
* `Key.parts?` reads them back: the first unescaped colon ends the type, and each unescaped plus
  sign after it ends a value.
-/

namespace RecordCache
namespace Key

/-- Writes a backslash in front of each backslash and each separator. -/
def escape (separator : Char) (text : List Char) : List Char :=
  text.flatMap fun c => if c = '\\' ∨ c = separator then ['\\', c] else [c]

/-- The key of the entity with the given type name and identifying values. -/
def compose (typeName : String) (values : List String) : Key :=
  ⟨String.ofList (escape ':' typeName.toList ++ ':' ::
    List.intercalate ['+'] (values.map fun value => escape '+' value.toList))⟩

/-- Reads up to the first unescaped colon: the text before it, and what follows it, if there is
one. A backslash at the end stands for nothing. -/
def splitType : List Char → List Char × Option (List Char)
  | [] => ([], none)
  | ['\\'] => ([], none)
  | '\\' :: c :: rest => (c :: (splitType rest).1, (splitType rest).2)
  | c :: rest => if c = ':' then ([], some rest) else (c :: (splitType rest).1, (splitType rest).2)

/-- Puts a character in front of the first of several texts. -/
def consHead (c : Char) : List (List Char) → List (List Char)
  | [] => [[c]]
  | text :: texts => (c :: text) :: texts

/-- Splits at the unescaped plus signs. A backslash at the end stands for nothing. -/
def splitValues : List Char → List (List Char)
  | [] => [[]]
  | ['\\'] => [[]]
  | '\\' :: c :: rest => consHead c (splitValues rest)
  | c :: rest => if c = '+' then [] :: splitValues rest else consHead c (splitValues rest)

/-- The type name and the values of a composite key; none when no unescaped colon ends a type. -/
def parts? (key : Key) : Option (String × List String) :=
  match splitType key.text.toList with
  | (typeName, some rest) => some (String.ofList typeName, (splitValues rest).map String.ofList)
  | (_, none) => none

end Key
end RecordCache
