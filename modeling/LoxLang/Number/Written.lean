import LoxLang.Number.Decimal

/-!
# How numbers are written

Three styles share one table of decisions. *Display* is what a program prints; *source* is what the
scanner can read again; *listing* is the column of the token table.

## Main definitions

* `NumberStyle` — the decisions that tell the styles apart.
* `NumberStyle.write` — the text of a double in a style.
* `displayNumber`, `sourceNumber`, `listedNumber` — the three styles at work.
-/

namespace LoxLang

/-- How a whole number is written. -/
inductive WholeStyle
  /-- All its digits, however many. -/
  | digits
  /-- As a fraction is, with `.0` where no exponent is written. -/
  | pointed
deriving DecidableEq, Repr

/-- The decisions of a way to write numbers. -/
structure NumberStyle where
  /-- How whole numbers are written. -/
  whole : WholeStyle
  /-- Whether very large and very small numbers take an exponent. -/
  exponents : Bool
  /-- Whether zero keeps its sign. -/
  signedZero : Bool
  /-- The word for infinity. -/
  infinite : String
  /-- The word for what is not a number. -/
  undefined : String
deriving Repr

namespace NumberStyle

/-- The text of a positive finite magnitude by its shortest decimal. An exponent is written from
`10 ^ 16` up and below `10 ^ -4`. -/
def fewestDigits (style : NumberStyle) (magnitude : Nat) : List Char :=
  let d := Decimal.shortest magnitude
  if style.exponents && (d.point ≤ -4 || 16 < d.point) then d.scientific
  else if 0 ≤ d.scale && style.whole = .pointed then d.plain ++ ['.', '0']
  else d.plain

/-- The text of a finite magnitude. -/
def finite (style : NumberStyle) (magnitude : Nat) : List Char :=
  if Binary64.isWhole magnitude && (style.whole = .digits || magnitude = 0) then
    Nat.toDigits 10 (Binary64.whole magnitude) ++ if style.whole = .pointed then ['.', '0'] else []
  else style.fewestDigits magnitude

/-- The text of a double. -/
def write (style : NumberStyle) (x : Float) : String :=
  let magnitude := Binary64.magnitude x
  let sign := if Binary64.negative x && (style.signedZero || magnitude != 0) then "-" else ""
  if Binary64.infinity < magnitude then style.undefined
  else if magnitude = Binary64.infinity then sign ++ style.infinite
  else sign ++ String.ofList (style.finite magnitude)

end NumberStyle

/-- The text that a program prints for a number. -/
def displayNumber : Float → String :=
  NumberStyle.write ⟨.digits, true, true, "Infinity", "NaN"⟩

/-- The text of a number in a tree or in source, which has no exponents and no sign on zero. -/
def sourceNumber : Float → String :=
  NumberStyle.write ⟨.digits, false, false, "Infinity", "NaN"⟩

/-- The text of a number in the token table, which tells numbers from digits by a point. -/
def listedNumber : Float → String :=
  NumberStyle.write ⟨.pointed, true, true, "inf", "nan"⟩

end LoxLang
