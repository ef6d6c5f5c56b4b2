/-!
# White space and line ends

* `Text.isBlank` -- the characters that may surround a number in text.
* `Text.unifyLineEnds` -- every line end as a single line feed.
-/

namespace Constructions.Text

/-- White space around a number: tab, line feed, vertical tab, form feed, carriage return and space,
    and the white space of Unicode above ASCII.  The separators U+001C to U+001F are not part of
    it. -/
def isBlank (c : Char) : Bool :=
  let n := c.toNat
  n == 0x20 || (0x09 ≤ n && n ≤ 0x0D) || n == 0x85 || n == 0xA0 || n == 0x1680
    || (0x2000 ≤ n && n ≤ 0x200A) || n == 0x2028 || n == 0x2029 || n == 0x202F || n == 0x205F
    || n == 0x3000

/-- The text without the white space at its two ends. -/
def trimBlank (s : List Char) : List Char :=
  ((s.dropWhile isBlank).reverse.dropWhile isBlank).reverse

/-- A carriage return with a line feed, and one on its own, each become a line feed. -/
def unifyLineEnds : List Char → List Char
  | [] => []
  | '\r' :: '\n' :: rest => '\n' :: unifyLineEnds rest
  | c :: rest => (if c = '\r' then '\n' else c) :: unifyLineEnds rest

end Constructions.Text
