import RecordCache.Json.Printer

/-!
# Field keys

The field of a record that a query reads is named by the field and its arguments. Two calls that
differ only in the order of their arguments, or of the members inside them, have one field key.

* `FieldKey.sortedArguments`: the arguments in ascending order of name, those of one name in the
  order given;
* `FieldKey.make`: the name, and the arguments in canonical JSON.
-/

namespace RecordCache
namespace FieldKey

/-- The arguments in ascending order of name; those of one name stay in the order given. -/
def sortedArguments (arguments : List (String × Json)) : List (String × Json) :=
  arguments.mergeSort fun a b => compare a.1 b.1 != .gt

/-- The text of the arguments between commas. -/
def argumentsText (arguments : List (String × Json)) : List Char :=
  Json.textMembers ((sortedArguments arguments).map fun a => (a.1, a.2.canonical))

/-- The key of a field read with the given arguments. -/
def make (name : String) (arguments : List (String × Json)) : String :=
  if arguments.isEmpty then name
  else String.ofList
    (name.toList ++ '(' :: '\x7b' :: argumentsText arguments ++ ['\x7d', ')'])

end FieldKey
end RecordCache
