import Predictive.Text.Printable

/-!
Quoted text.  The text stands between double quotes; a quote, a backslash and
every character that is not printable by itself is escaped.
-/

namespace Predictive.Text

/-- The escape of a character inside quotes.  The characters with a letter of
their own use it; any other is given by its code point in hexadecimal. -/
def escape (c : Char) : String :=
  if c = '"' then "\\\""
  else if c = '\\' then "\\\\"
  else if c = '\n' then "\\n"
  else if c = '\r' then "\\r"
  else if c = '\t' then "\\t"
  else if c = '\x00' then "\\0"
  else if isPrintable c then c.toString
  else "\\u\x7b" ++ String.ofList (Nat.toDigits 16 c.toNat) ++ "\x7d"

/-- The text between double quotes. -/
def quoted (text : String) : String :=
  "\"" ++ String.join (text.toList.map escape) ++ "\""

end Predictive.Text
