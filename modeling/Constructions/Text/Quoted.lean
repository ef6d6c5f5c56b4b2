import Constructions.Text.Printable

/-!
# Quoted text

Text inside quotes, in which a character that is not printable is written as an escape.

* `Text.hexText` -- a number in hexadecimal, filled up to a width.
* `Text.quoteFor` -- apostrophes, unless the text has an apostrophe and no double quote.
* `Text.quoted` -- the quoted text.
-/

namespace Constructions.Text

/-- A number in lower-case hexadecimal, with zeros in front up to `width` digits. -/
def hexText (width n : Nat) : String :=
  let digits := Nat.toDigits 16 n
  String.ofList (List.replicate (width - digits.length) '0' ++ digits)

/-- The quote that a text is put in. -/
def quoteFor (s : List Char) : Char :=
  if s.contains '\x27' && !s.contains '\x22' then '\x22' else '\x27'

/-- How a character is written between two of the quote `q`. -/
def quotedChar (q c : Char) : String :=
  if c = q || c = '\\' then "\\" ++ c.toString
  else if c = '\n' then "\\n"
  else if c = '\r' then "\\r"
  else if c = '\t' then "\\t"
  else if isPrintable c then c.toString
  else if c.toNat ≤ 0xFF then "\\x" ++ hexText 2 c.toNat
  else if c.toNat ≤ 0xFFFF then "\\u" ++ hexText 4 c.toNat
  else "\\U" ++ hexText 8 c.toNat

/-- The text in quotes. -/
def quoted (s : String) : String :=
  let q := quoteFor s.toList
  q.toString ++ String.join (s.toList.map (quotedChar q)) ++ q.toString

end Constructions.Text
