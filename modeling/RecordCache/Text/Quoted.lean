import RecordCache.Text.Decimal
import RecordCache.Text.Visible

/-!
# Quoted text in messages

A message quotes a text between double quotes so that nothing in it is hidden: quotes and
backslashes get a backslash, the usual control characters their letter, and every other character
that does not show by itself its code point in braces.
-/

namespace RecordCache.Text

/-- The spelling of one character inside quotes. -/
def quotedChar (c : Char) : List Char :=
  if c = '"' then ['\\', '"']
  else if c = '\\' then ['\\', '\\']
  else if c = '\n' then ['\\', 'n']
  else if c = '\r' then ['\\', 'r']
  else if c = '\t' then ['\\', 't']
  else if c = '\x00' then ['\\', '0']
  else if isVisible c then [c]
  else ['\\', 'u', '\x7b'] ++ hexadecimal c.toNat ++ ['\x7d']

/-- The text between double quotes. -/
def quoted (text : String) : String :=
  String.ofList ('"' :: text.toList.flatMap quotedChar ++ ['"'])

end RecordCache.Text
