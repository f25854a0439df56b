import StackLang.Text.Padding
import StackLang.Text.Printable

/-!
# Quoted texts

A text between quotes, in which the quote itself, the backslash and what cannot be shown are written
as escapes. The quote is an apostrophe, unless the text holds apostrophes and no double quotes.
-/

namespace StackLang.Text

/-- The quote that is put around a text. -/
def quoteFor (cs : List Char) : Char :=
  if cs.contains '\'' && !cs.contains '"' then '"' else '\''

/-- How a character is written between two `quote`s. -/
def escapeChar (quote c : Char) : String :=
  if c = quote || c = '\\' then String.ofList ['\\', c]
  else if c = '\n' then "\\n"
  else if c = '\r' then "\\r"
  else if c = '\t' then "\\t"
  else if isPrintable c then String.singleton c
  else if c.toNat < 0x100 then "\\x" ++ hexadecimal 2 c.toNat
  else if c.toNat < 0x10000 then "\\u" ++ hexadecimal 4 c.toNat
  else "\\U" ++ hexadecimal 8 c.toNat

/-- The quoted form of a text. -/
def quoted (s : String) : String :=
  let quote := quoteFor s.toList
  String.singleton quote ++ String.join (s.toList.map (escapeChar quote)) ++ String.singleton quote

end StackLang.Text
