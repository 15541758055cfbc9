/-!
# Blanks around a text

## Main definitions

* `Text.isSpace` — whether a character is white space.
* `Text.trimWhere` — a text without the characters of a class around it.
* `Text.trim` — a text without the white space around it.
-/

namespace LoxLang.Text

/-- Whether a character is white space: the separators of Unicode, and the control characters that
end a line, a page or a record. -/
def isSpace (c : Char) : Bool :=
  let n := c.toNat
  (0x09 ≤ n && n ≤ 0x0D) || (0x1C ≤ n && n ≤ 0x20) || n == 0x85 || n == 0xA0 || n == 0x1680 ||
    (0x2000 ≤ n && n ≤ 0x200A) || n == 0x2028 || n == 0x2029 || n == 0x202F || n == 0x205F ||
    n == 0x3000

/-- A text without the characters of a class around it. -/
def trimWhere (outer : Char → Bool) (text : List Char) : List Char :=
  ((text.dropWhile outer).reverse.dropWhile outer).reverse

/-- A text without the white space around it. -/
def trim (text : List Char) : List Char := trimWhere isSpace text

end LoxLang.Text
