import LoxLang.Text.Blank

/-!
# Whole numbers in text

A whole number may have blanks around it, a sign, digits of any script, and single underscores
between digits.

## Main definitions

* `Text.isDecimalDigit` — whether a character is a digit of some script.
* `Text.isPadding` — whether a character may stand around a whole number.
* `Text.isInteger`, `Text.integer?` — whether a text denotes a whole number, and which.
* `Text.looksNegative` — whether a text looks like a negative number.
-/

namespace LoxLang.Text

/-- The zeros of the scripts that have decimal digits, by their code points in Unicode 14. The other
nine digits of a script follow its zero. -/
def zeros : List Nat :=
  [48, 1632, 1776, 1984, 2406, 2534, 2662, 2790, 2918, 3046, 3174, 3302, 3430, 3558, 3664, 3792,
   3872, 4160, 4240, 6112, 6160, 6470, 6608, 6784, 6800, 6992, 7088, 7232, 7248, 42528, 43216,
   43264, 43472, 43504, 43600, 44016, 65296, 66720, 68912, 69734, 69872, 69942, 70096, 70384,
   70736, 70864, 71248, 71360, 71472, 71904, 72016, 72784, 73040, 73120, 92768, 92864, 93008,
   120782, 120792, 120802, 120812, 120822, 123200, 123632, 125264, 130032]

/-- Whether a character is a decimal digit of some script. -/
def isDecimalDigit (c : Char) : Bool := zeros.any fun z => z ≤ c.toNat && c.toNat < z + 10

/-- Digits with single underscores between them. -/
def groupedDigits : List Char → Bool
  | [] => false
  | [c] => isDecimalDigit c
  | c :: '_' :: rest => isDecimalDigit c && groupedDigits rest
  | c :: rest => isDecimalDigit c && groupedDigits rest

/-- The most digits that a whole number may have. -/
def maxDigits : Nat := 4300

/-- Whether a character may stand around a whole number: white space other than the four control
characters that separate records. -/
def isPadding (c : Char) : Bool := isSpace c && !(0x1C ≤ c.toNat && c.toNat ≤ 0x1F)

/-- Whether a text denotes a whole number. -/
def isInteger (text : List Char) : Bool :=
  let bare := trimWhere isPadding text
  let digits :=
    match bare with
    | '+' :: rest => rest
    | '-' :: rest => rest
    | _ => bare
  groupedDigits digits && digits.countP isDecimalDigit ≤ maxDigits

/-- The value of a digit of some script. -/
def digitValue (c : Char) : Nat :=
  match zeros.find? fun z => z ≤ c.toNat && c.toNat < z + 10 with
  | some first => c.toNat - first
  | none => 0

/-- The whole number that a text denotes, if it does. -/
def integer? (text : List Char) : Option Int :=
  if isInteger text then
    let digits := (text.filter isDecimalDigit).map digitValue
    let size : Nat := digits.foldl (fun n d => 10 * n + d) 0
    some (if text.contains '-' then -(size : Int) else size)
  else none

/-- Whether a text is a minus sign and digits, or the same with a point and digits behind it. One
line end may follow. -/
def looksNegative (text : List Char) : Bool :=
  match text with
  | '-' :: rest =>
    let rest := if rest.getLast? == some '\n' then rest.dropLast else rest
    let whole := rest.takeWhile isDecimalDigit
    match rest.dropWhile isDecimalDigit with
    | [] => !whole.isEmpty
    | '.' :: fraction => !fraction.isEmpty && fraction.all isDecimalDigit
    | _ => false
  | _ => false

end LoxLang.Text
