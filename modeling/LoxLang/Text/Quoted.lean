import LoxLang.Text.Printable

/-!
# Text on one line

Line ends, tabs and whatever else cannot be printed are written as escapes, so that a text stays on
its line. A text is put between apostrophes, or between double quotes if it holds an apostrophe and
no double quote; the mark in use is escaped within.

## Main definitions

* `Text.escape` — one character as it is written.
* `Text.onOneLine` — a text as it is written, without the marks around it.
* `Text.quoted` — a text between marks.
-/

namespace LoxLang.Text

/-- The last digits of a number in base sixteen, padded with zeros. -/
def hexadecimal (width n : Nat) : List Char :=
  let digits := Nat.toDigits 16 n
  List.replicate (width - digits.length) '0' ++ digits

/-- A character as it is written between two marks. What cannot be printed is written by its code
point, in the shortest of three widths. -/
def escape (mark c : Char) : List Char :=
  if c == '\\' || c == mark then ['\\', c]
  else if c == '\n' then ['\\', 'n']
  else if c == '\t' then ['\\', 't']
  else if c == '\r' then ['\\', 'r']
  else if isPrintable c then [c]
  else if c.toNat < 0x100 then '\\' :: 'x' :: hexadecimal 2 c.toNat
  else if c.toNat < 0x10000 then '\\' :: 'u' :: hexadecimal 4 c.toNat
  else '\\' :: 'U' :: hexadecimal 8 c.toNat

/-- The mark that is put around a text. -/
def markFor (text : List Char) : Char :=
  if text.contains '\'' && !text.contains '"' then '"' else '\''

/-- A text as it is written on one line. -/
def onOneLine (text : List Char) : List Char := text.flatMap (escape (markFor text))

/-- A text between its marks. -/
def quoted (text : List Char) : List Char := markFor text :: (onOneLine text ++ [markFor text])

end LoxLang.Text
