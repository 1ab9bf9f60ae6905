import Lineage.Text.Hidden
/-!
Quoting text for messages.

Messages show a user's text inside double quotes with the characters that would be
ambiguous or invisible escaped: the quote and the backslash, the usual control escapes for
tab, carriage return, line feed and NUL, and `\u` with the hexadecimal code point in braces
for the other hidden characters.
-/
namespace Lineage.Text

/-- Lower-case hexadecimal digits of a number, without leading zeros. -/
def hexDigits (n : Nat) : String :=
  String.ofList (Nat.toDigits 16 n)

/-- How one character is written inside a quoted text. -/
def escapeForQuote (c : Char) : String :=
  if c == '"' then "\\\""
  else if c == '\\' then "\\\\"
  else if c == '\n' then "\\n"
  else if c == '\r' then "\\r"
  else if c == '\t' then "\\t"
  else if c == '\x00' then "\\0"
  else if isHiddenChar c then "\\u\x7b" ++ hexDigits c.toNat ++ "\x7d"
  else c.toString

/-- A text in double quotes with its special characters escaped. -/
def debugQuote (s : String) : String :=
  "\"" ++ String.join (s.toList.map escapeForQuote) ++ "\""

end Lineage.Text
