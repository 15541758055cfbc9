/-!
# Doubles as points of an integer grid

Every finite double is a whole multiple of the least positive one, `2 ^ -1074`. So the size of a
double is a natural number of such *units*, and rounding a fraction to the nearest double is integer
arithmetic. The bit pattern without its sign bit is called the *magnitude*; magnitudes are ordered
as the numbers they stand for, and carrying out of a fraction field steps into the next exponent, so
an encoding needs no case for it.

## Main definitions

* `Binary64.units` — the size of a magnitude in units of `2 ^ -1074`.
* `Binary64.nearest` — the magnitude nearest to a fraction, ties to the even one.
* `Binary64.magnitude`, `Binary64.negative`, `Binary64.ofMagnitude` — the parts of a `Float`.
-/

namespace LoxLang.Binary64

/-- The magnitude of infinity, the least one that stands for no number. -/
def infinity : Nat := 2047 * Nat.pow 2 52

/-- How many units of `2 ^ -1074` there are in one. -/
def unitsPerOne : Nat := Nat.pow 2 1074

/-- The size of a magnitude in units. Exponents zero and one share a spacing; a larger exponent
doubles it, and gives the fraction a leading one. -/
def units (magnitude : Nat) : Nat :=
  let exponent := magnitude / Nat.pow 2 52
  let fraction := magnitude % Nat.pow 2 52
  if exponent = 0 then fraction else (Nat.pow 2 52 + fraction) * Nat.pow 2 (exponent - 1)

/-- The whole number nearest to a fraction; a half goes to the even neighbour. -/
def roundHalfEven (numerator denominator : Nat) : Nat :=
  let quotient := numerator / denominator
  let remainder := numerator % denominator
  if 2 * remainder < denominator then quotient
  else if denominator < 2 * remainder then quotient + 1
  else quotient + quotient % 2

/-- A whole quotient is not moved by rounding. -/
theorem roundHalfEven_mul (q : Nat) {d : Nat} (hd : 0 < d) : roundHalfEven (q * d) d = q := by
  simp [roundHalfEven, Nat.mul_div_cancel q hd, hd]

/-- The magnitude nearest to a fraction. The spacing `2 ^ shift` is the one at which the quotient
has at most 53 binary digits, and what lies past the last finite magnitude is infinite. -/
def nearest (numerator denominator : Nat) : Nat :=
  let scaled := numerator * unitsPerOne
  let shift := (scaled / denominator).log2 - 52
  min (shift * Nat.pow 2 52 + roundHalfEven scaled (denominator * Nat.pow 2 shift)) infinity

/-- The bits of a double below its sign. -/
def magnitude (x : Float) : Nat := x.toBits.toNat % Nat.pow 2 63

/-- Whether the sign bit of a double is set, which tells the zeros apart too. -/
def negative (x : Float) : Bool := Nat.pow 2 63 ≤ x.toBits.toNat

/-- The double without a sign that has this magnitude. -/
def ofMagnitude (magnitude : Nat) : Float := Float.ofBits (UInt64.ofNat magnitude)

/-- Whether a finite magnitude is a whole number. -/
def isWhole (magnitude : Nat) : Bool := units magnitude % unitsPerOne = 0

/-- The whole part of a finite magnitude. -/
def whole (magnitude : Nat) : Nat := units magnitude / unitsPerOne

end LoxLang.Binary64
