import LoxLang.Number.Binary64

/-!
# Decimal numerals and the shortest one that reads back

A numeral such as `12.50` is a coefficient and a power of ten. Reading takes it to the nearest
double. Writing looks for the fewest digits that read back as the same double, on each decimal grid
at the two points next to the value.

## Main definitions

* `Decimal.ofNumeral` — the number that digits with at most one point denote.
* `Decimal.toMagnitude` — the nearest double, without its sign.
* `Decimal.shortest` — the shortest decimal that reads back as a given magnitude.
* `Decimal.plain`, `Decimal.scientific` — the two ways to write one.

## Main results

* `Decimal.toMagnitude_of_candidate?` — a candidate is only taken when it reads back.
-/

namespace LoxLang

/-- The number `coefficient * 10 ^ scale`. -/
structure Decimal where
  coefficient : Nat
  scale : Int
deriving DecidableEq, Repr

namespace Decimal

/-- The number that a run of digits denotes, with or without a point and more digits. -/
def ofNumeral (text : List Char) : Decimal :=
  let whole := text.takeWhile Char.isDigit
  let fraction := (text.dropWhile Char.isDigit).drop 1
  ⟨Nat.ofDigitChars 10 (whole ++ fraction) 0, -(fraction.length : Int)⟩

/-- The magnitude of the double nearest to a decimal. -/
def toMagnitude (d : Decimal) : Nat :=
  match d.scale with
  | .ofNat k => Binary64.nearest (d.coefficient * Nat.pow 10 k) 1
  | .negSucc k => Binary64.nearest d.coefficient (Nat.pow 10 (k + 1))

/-- The double nearest to a decimal. -/
def toFloat (d : Decimal) : Float := Binary64.ofMagnitude d.toMagnitude

/-- How many decimal digits a number has, none for zero. -/
def digitCount (n : Nat) : Nat := if n = 0 then 0 else (Nat.toDigits 10 n).length

/-- The least `p` with the positive number `units * 2 ^ -1074` below `10 ^ p`. -/
def leadingPlace (units : Nat) : Int :=
  let whole := units / Binary64.unitsPerOne
  if whole = 0 then 1 - (digitCount ((Binary64.unitsPerOne + units - 1) / units - 1) : Int)
  else digitCount whole

/-- The coefficient for a magnitude on the grid of spacing `10 ^ scale`: of the two grid points next
to the value the one that reads back, the nearer one if both do, the even one if they are equally
near. -/
def candidate? (magnitude : Nat) (scale : Int) : Option Decimal :=
  let units := Binary64.units magnitude
  let (numerator, denominator) :=
    match scale with
    | .ofNat k => (units, Binary64.unitsPerOne * Nat.pow 10 k)
    | .negSucc k => (units * Nat.pow 10 (k + 1), Binary64.unitsPerOne)
  let near : Decimal := ⟨Binary64.roundHalfEven numerator denominator, scale⟩
  let below : Decimal := ⟨numerator / denominator, scale⟩
  let above : Decimal := ⟨numerator / denominator + 1, scale⟩
  [near, below, above].find? (·.toMagnitude == magnitude)

/-- A candidate reads back as the magnitude it was made for. -/
theorem toMagnitude_of_candidate? {m : Nat} {s : Int} {d : Decimal}
    (h : candidate? m s = some d) : d.toMagnitude = m := by
  have := List.find?_some h
  simpa using this

/-- Moves trailing zeros of the coefficient into the scale. -/
def trim (d : Decimal) : Decimal :=
  if h : d.coefficient ≠ 0 ∧ d.coefficient % 10 = 0 then trim ⟨d.coefficient / 10, d.scale + 1⟩
  else d
termination_by d.coefficient
decreasing_by
  have := h.1
  exact Nat.div_lt_self (Nat.pos_of_ne_zero this) (by decide)

/-- A finite magnitude written out in full: a unit is `5 ^ 1074 * 10 ^ -1074`. -/
def exact (magnitude : Nat) : Decimal := ⟨Binary64.units magnitude * Nat.pow 5 1074, -1074⟩

/-- The decimal with the fewest digits that reads back as a positive finite magnitude. Seventeen
digits always suffice; the full expansion stands behind them. -/
def shortest (magnitude : Nat) : Decimal :=
  let place := leadingPlace (Binary64.units magnitude)
  let found := (List.range 17).findSome? fun n => candidate? magnitude (place - (n + 1 : Nat))
  (found.getD (exact magnitude)).trim

/-- The digits of the coefficient. -/
def digits (d : Decimal) : List Char := Nat.toDigits 10 d.coefficient

/-- The number of digits before the point, not positive for a number below a tenth. -/
def point (d : Decimal) : Int := d.digits.length + d.scale

/-- A decimal written without an exponent: zeros fill the places up to the point, or from it. -/
def plain (d : Decimal) : List Char :=
  match d.scale with
  | .ofNat k => d.digits ++ List.replicate k '0'
  | .negSucc k =>
    let padded := List.replicate (k + 2 - d.digits.length) '0' ++ d.digits
    padded.take (padded.length - (k + 1)) ++ '.' :: padded.drop (padded.length - (k + 1))

/-- A decimal written with one digit before the point and an exponent of at least two digits. -/
def scientific (d : Decimal) : List Char :=
  let exponent := d.point - 1
  let size := Nat.toDigits 10 exponent.natAbs
  let fraction := if d.digits.length ≤ 1 then [] else '.' :: d.digits.drop 1
  d.digits.take 1 ++ fraction ++ ['e', if exponent < 0 then '-' else '+'] ++
    List.replicate (2 - size.length) '0' ++ size

end Decimal

end LoxLang
