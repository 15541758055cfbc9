import Mathlib
import LoxLang.Proofs.Number.ReadBack

set_option autoImplicit false

/-!
# Rounding goes to the nearest double

The finite doubles are points on the line of numbers. A fraction is rounded to one of them from
which no other is nearer, and if two are equally near to the one with the even bit pattern.

The doubles that are not below a power of two lie on a grid, and those below it are farther from a
fraction above it than the power itself. So on the grid that rounding chooses nothing is asked but
which whole number is the nearest one.

## Main definitions

* `Binary64.value`, `Decimal.value` — the numbers that magnitudes and decimals stand for.
* `Binary64.IsNearest` — a magnitude is the nearest one to a number.
* `Binary64.rounded` — what a fraction of units is rounded to if there is no largest double.

## Main results

* `Binary64.dist_roundHalfEven_lt` — rounding to a whole number goes to the nearest one.
* `Binary64.isNearest_nearest` — rounding to a double goes to the nearest one.
* `Decimal.isNearest_toMagnitude` — a decimal is read as the double nearest to it.
-/

namespace LoxLang

namespace Binary64

/-- The number that a finite magnitude stands for. -/
def value (m : Nat) : ℚ := units m / unitsPerOne

/-- A magnitude is the nearest one to a number: no finite magnitude is nearer, and if another one is
as near, this one is even. -/
structure IsNearest (q : ℚ) (m : Nat) : Prop where
  dist_le : ∀ n < infinity, |q - value m| ≤ |q - value n|
  even_of_dist_eq : ∀ n < infinity, n ≠ m → |q - value n| = |q - value m| → Even m

/-! ## Rounding to whole numbers -/

section Whole

variable {a b k : Nat}

/-- Rounding to a whole number moves by a half at most, and by a half only to an even number. -/
lemma dist_roundHalfEven_le (a : Nat) (hb : 0 < b) :
    |(a / b : ℚ) - roundHalfEven a b| < 1 / 2 ∨
      |(a / b : ℚ) - roundHalfEven a b| = 1 / 2 ∧ Even (roundHalfEven a b) := by
  have hpos : (0 : ℚ) < b := Nat.cast_pos.2 hb
  have hsplit : (a / b : ℚ) = (a / b : Nat) + (a % b : Nat) / b := by
    have hdiv : (b : ℚ) * (a / b : Nat) + (a % b : Nat) = a := by
      exact_mod_cast Nat.div_add_mod a b
    field_simp
    linarith
  have hnonneg : (0 : ℚ) ≤ (a % b : Nat) / b := by positivity
  have hlt : ((a % b : Nat) / b : ℚ) < 1 := by
    rw [div_lt_one hpos]
    exact_mod_cast Nat.mod_lt a hb
  rw [hsplit]
  unfold roundHalfEven
  dsimp only
  split
  · rename_i hbelow
    left
    have hhalf : ((a % b : Nat) / b : ℚ) < 1 / 2 := by
      rw [div_lt_div_iff₀ hpos two_pos]
      exact_mod_cast (by omega : a % b * 2 < 1 * b)
    rwa [add_sub_cancel_left, abs_of_nonneg hnonneg]
  · split
    · rename_i habove
      left
      have hhalf : 1 / 2 < ((a % b : Nat) / b : ℚ) := by
        rw [div_lt_div_iff₀ two_pos hpos]
        exact_mod_cast (by omega : 1 * b < a % b * 2)
      push_cast
      rw [abs_lt]
      constructor <;> linarith
    · right
      have hhalf : ((a % b : Nat) / b : ℚ) = 1 / 2 := by
        rw [div_eq_div_iff hpos.ne' two_ne_zero]
        exact_mod_cast (by omega : a % b * 2 = 1 * b)
      rw [hhalf]
      rcases Nat.mod_two_eq_zero_or_one (a / b) with hparity | hparity
      · rw [hparity]
        exact ⟨by norm_num, Nat.even_iff.2 hparity⟩
      · rw [hparity]
        exact ⟨by push_cast; norm_num, Nat.even_iff.2 (by omega)⟩

/-- **Rounding to a whole number goes to the nearest one**, and to the even one of two that are
equally near. -/
theorem dist_roundHalfEven_lt (a : Nat) (hb : 0 < b) {z : Nat} (hz : z ≠ roundHalfEven a b) :
    |(a / b : ℚ) - roundHalfEven a b| < |(a / b : ℚ) - z| ∨
      |(a / b : ℚ) - roundHalfEven a b| = |(a / b : ℚ) - z| ∧ Even (roundHalfEven a b) := by
  have hapart : (1 : ℚ) ≤ |(roundHalfEven a b : ℚ) - z| := by
    have hint : (1 : ℤ) ≤ |(roundHalfEven a b : ℤ) - z| :=
      Int.one_le_abs (sub_ne_zero.2 (Nat.cast_injective.ne hz.symm))
    exact_mod_cast hint
  have htriangle : |(roundHalfEven a b : ℚ) - z| ≤
      |(a / b : ℚ) - roundHalfEven a b| + |(a / b : ℚ) - z| := by
    rw [abs_sub_comm (a / b : ℚ) (roundHalfEven a b)]
    exact abs_sub_le _ _ _
  rcases dist_roundHalfEven_le a hb with hlt | ⟨heq, heven⟩
  · left
    linarith
  · have hle : |(a / b : ℚ) - roundHalfEven a b| ≤ |(a / b : ℚ) - z| := by linarith
    rcases hle.lt_or_eq with hlt | hsame
    · exact .inl hlt
    · exact .inr ⟨hsame, heven⟩

/-- A fraction below a whole number is not rounded beyond it. -/
lemma roundHalfEven_le (hb : 0 < b) (h : a < k * b) : roundHalfEven a b ≤ k := by
  have hdiv : a / b < k := (Nat.div_lt_iff_lt_mul hb).2 h
  unfold roundHalfEven
  dsimp only
  split
  · omega
  · split <;> omega

/-- A fraction that is not below a whole number is not rounded below it. -/
lemma le_roundHalfEven (hb : 0 < b) (h : k * b ≤ a) : k ≤ roundHalfEven a b := by
  have hdiv : k ≤ a / b := (Nat.le_div_iff_mul_le hb).2 h
  unfold roundHalfEven
  dsimp only
  split
  · omega
  · split <;> omega

end Whole

/-! ## Doubles on a grid -/

/-- At most 53 binary digits, shifted, are the units of a magnitude. A number that takes one more
digit is a power of two, and steps into the next exponent. -/
lemma units_shifted {s r : Nat} (hle : r ≤ 2 ^ 53) (hge : s ≠ 0 → 2 ^ 52 ≤ r) :
    units (s * 2 ^ 52 + r) = r * 2 ^ s := by
  rw [units_eq]
  rcases Nat.lt_or_ge r (2 ^ 52) with hlt | hnormal
  · obtain rfl : s = 0 := by
      by_contra hs
      exact absurd (hge hs) (by omega)
    rw [if_pos (by omega)]
    omega
  · rcases hle.lt_or_eq with hlt | rfl
    · have hdiv : (s * 2 ^ 52 + r) / 2 ^ 52 = s + 1 := by omega
      have hmod : (s * 2 ^ 52 + r) % 2 ^ 52 = r - 2 ^ 52 := by omega
      rw [hdiv, hmod, if_neg (by omega), Nat.add_sub_cancel, Nat.add_sub_cancel' hnormal]
    · have hdiv : (s * 2 ^ 52 + 2 ^ 53) / 2 ^ 52 = s + 2 := by omega
      have hmod : (s * 2 ^ 52 + 2 ^ 53) % 2 ^ 52 = 0 := by omega
      have hnext : s + 2 - 1 = s + 1 := rfl
      have htwice : 2 ^ 53 = 2 ^ 52 * 2 := rfl
      rw [hdiv, hmod, if_neg (by omega), hnext, Nat.add_zero, htwice, pow_succ' 2 s, Nat.mul_assoc]

/-- A magnitude lies on the grid of a shift, or below its first point with 53 digits. -/
lemma units_cases (s n : Nat) :
    (∃ z, units n = z * 2 ^ s) ∨ s ≠ 0 ∧ units n < 2 ^ 52 * 2 ^ s := by
  obtain ⟨q, hq, -⟩ := exists_units_eq n
  by_cases hs : s ≤ (units n).log2 - 52
  · left
    refine ⟨q * 2 ^ ((units n).log2 - 52 - s), ?_⟩
    rw [Nat.mul_assoc, ← Nat.pow_add, Nat.sub_add_cancel hs]
    exact hq
  · right
    refine ⟨by omega, ?_⟩
    rw [← Nat.pow_add]
    by_cases hz : units n = 0
    · rw [hz]
      exact Nat.two_pow_pos _
    · exact (Nat.log2_lt hz).1 (by omega)

/-- Magnitudes of one size are the same. -/
lemma units_inj {m n : Nat} (h : units m = units n) : m = n := by
  obtain ⟨q, hq, hm⟩ := exists_units_eq m
  obtain ⟨q', hq', hn⟩ := exists_units_eq n
  rw [h] at hq hm
  have hsame : q = q' := Nat.eq_of_mul_eq_mul_right (Nat.two_pow_pos _) (hq.symm.trans hq')
  exact hm.trans (hsame ▸ hn.symm)

/-! ## Rounding fractions of units -/

/-- The shift of the grid on which a fraction of units is rounded. -/
def shift (a b : Nat) : Nat := (a / b).log2 - 52

/-- What a fraction of units is rounded to if there is no largest double. -/
def rounded (a b : Nat) : Nat := shift a b * 2 ^ 52 + roundHalfEven a (b * 2 ^ shift a b)

/-- There is at least one unit in one. -/
lemma unitsPerOne_pos : 0 < unitsPerOne := by
  unfold unitsPerOne
  generalize 1074 = k
  exact Nat.two_pow_pos k

/-- Rounding stops at infinity. -/
lemma nearest_eq (a b : Nat) : nearest a b = min (rounded (a * unitsPerOne) b) infinity := by
  simp [nearest, rounded, shift]

/-- Of two numbers below another the larger one is nearer to it. -/
lemma dist_lt_of_below {p q t : ℚ} (hpq : p < q) (hqt : q ≤ t) : |t - q| < |t - p| := by
  rw [abs_of_nonneg (by linarith), abs_of_nonneg (by linarith)]
  linarith

section Units

variable {a b : Nat}

/-- On its grid a fraction of units has at most 53 digits before the point. -/
lemma lt_shift (hb : 0 < b) : a < 2 ^ 53 * (b * 2 ^ shift a b) := by
  have hlog : (a / b).log2 + 1 ≤ 53 + shift a b := by
    unfold shift
    omega
  have hquotient : a / b < 2 ^ (53 + shift a b) :=
    Nat.lt_log2_self.trans_le (Nat.pow_le_pow_right two_pos hlog)
  rw [Nat.div_lt_iff_lt_mul hb, Nat.pow_add] at hquotient
  calc a < 2 ^ 53 * 2 ^ shift a b * b := hquotient
    _ = 2 ^ 53 * (b * 2 ^ shift a b) := by rw [Nat.mul_assoc, Nat.mul_comm b]

/-- On a grid that is shifted it has all 53 of them. -/
lemma shift_le (hb : 0 < b) (hs : shift a b ≠ 0) : 2 ^ 52 * (b * 2 ^ shift a b) ≤ a := by
  have hlog : 52 + shift a b = (a / b).log2 := by
    unfold shift at hs ⊢
    omega
  have hne : a / b ≠ 0 := by
    intro hzero
    rw [hzero] at hlog
    simp at hlog
  have hquotient : 2 ^ (52 + shift a b) ≤ a / b := by
    rw [hlog]
    exact Nat.log2_self_le hne
  rw [Nat.le_div_iff_mul_le hb, Nat.pow_add] at hquotient
  calc 2 ^ 52 * (b * 2 ^ shift a b) = 2 ^ 52 * 2 ^ shift a b * b := by
        rw [Nat.mul_assoc, Nat.mul_comm b]
    _ ≤ a := hquotient

/-- The units to which a fraction of units is rounded. -/
lemma units_rounded (hb : 0 < b) :
    units (rounded a b) = roundHalfEven a (b * 2 ^ shift a b) * 2 ^ shift a b := by
  have hden : 0 < b * 2 ^ shift a b := Nat.mul_pos hb (Nat.two_pow_pos _)
  exact units_shifted (roundHalfEven_le hden (lt_shift hb))
    fun hs => le_roundHalfEven hden (shift_le hb hs)

/-- **A fraction of units is rounded to the nearest double**, and to the even one of two that are
equally near. -/
theorem dist_rounded_lt (hb : 0 < b) {n : Nat} (hn : n ≠ rounded a b) :
    |(a / b : ℚ) - units (rounded a b)| < |(a / b : ℚ) - units n| ∨
      |(a / b : ℚ) - units (rounded a b)| = |(a / b : ℚ) - units n| ∧ Even (rounded a b) := by
  have hden : 0 < b * 2 ^ shift a b := Nat.mul_pos hb (Nat.two_pow_pos _)
  have hpow : (0 : ℚ) < 2 ^ shift a b := by positivity
  have hpos : (0 : ℚ) < b := Nat.cast_pos.2 hb
  have hgrid : ∀ z : Nat, |(a / b : ℚ) - (z * 2 ^ shift a b : Nat)| =
      |(a / (b * 2 ^ shift a b : Nat) : ℚ) - z| * 2 ^ shift a b := by
    intro z
    have hscale : (a / b : ℚ) - (z * 2 ^ shift a b : Nat) =
        (a / (b * 2 ^ shift a b : Nat) - z) * 2 ^ shift a b := by
      push_cast
      field_simp
    rw [hscale, abs_mul, abs_of_pos hpow]
  have hwhole : ∀ z : Nat, z ≠ roundHalfEven a (b * 2 ^ shift a b) →
      |(a / b : ℚ) - units (rounded a b)| < |(a / b : ℚ) - (z * 2 ^ shift a b : Nat)| ∨
      |(a / b : ℚ) - units (rounded a b)| = |(a / b : ℚ) - (z * 2 ^ shift a b : Nat)| ∧
        Even (rounded a b) := by
    intro z hz
    rw [units_rounded hb, hgrid, hgrid]
    rcases dist_roundHalfEven_lt a hden hz with hlt | ⟨heq, heven⟩
    · exact .inl (mul_lt_mul_of_pos_right hlt hpow)
    · have hshift : Even (shift a b * 2 ^ 52) :=
        (Nat.even_pow.2 ⟨even_two, by decide⟩).mul_left _
      exact .inr ⟨by rw [heq], hshift.add heven⟩
  rcases units_cases (shift a b) n with ⟨z, hz⟩ | ⟨hs, hlt⟩
  · rw [hz]
    apply hwhole
    rintro rfl
    exact hn (units_inj (hz.trans (units_rounded hb).symm))
  · -- the magnitude lies below the grid, which begins below the fraction
    left
    have hstart : ((2 ^ 52 * 2 ^ shift a b : Nat) : ℚ) ≤ a / b := by
      have hle := shift_le hb hs
      rw [Nat.mul_comm b, ← Nat.mul_assoc] at hle
      rw [le_div_iff₀ hpos]
      exact_mod_cast hle
    have hbelow : (units n : ℚ) < (2 ^ 52 * 2 ^ shift a b : Nat) := Nat.cast_lt.2 hlt
    have hle : |(a / b : ℚ) - units (rounded a b)| ≤
        |(a / b : ℚ) - (2 ^ 52 * 2 ^ shift a b : Nat)| := by
      by_cases hz : 2 ^ 52 = roundHalfEven a (b * 2 ^ shift a b)
      · rw [units_rounded hb, ← hz]
      · rcases hwhole _ hz with hlt | ⟨heq, -⟩
        · exact hlt.le
        · exact heq.le
    exact hle.trans_lt (dist_lt_of_below hbelow hstart)

/-- **Rounding goes to the nearest double**, if that is finite. -/
theorem isNearest_nearest (hb : 0 < b) (h : nearest a b < infinity) :
    IsNearest (a / b) (nearest a b) := by
  have hrounded : nearest a b = rounded (a * unitsPerOne) b := by
    rw [nearest_eq] at h ⊢
    omega
  have hunit : (0 : ℚ) < unitsPerOne := Nat.cast_pos.2 unitsPerOne_pos
  have hdist : ∀ n, |(a / b : ℚ) - value n| =
      |((a * unitsPerOne : Nat) / b : ℚ) - units n| / unitsPerOne := by
    intro n
    have hscale : (a / b : ℚ) - value n =
        ((a * unitsPerOne : Nat) / b - units n) / unitsPerOne := by
      rw [sub_div, Nat.cast_mul, mul_div_right_comm, mul_div_cancel_right₀ _ hunit.ne', value]
    rw [hscale, abs_div, abs_of_pos hunit]
  rw [hrounded]
  refine ⟨fun n _ => ?_, fun n _ hn heq => ?_⟩
  · by_cases hn : n = rounded (a * unitsPerOne) b
    · rw [hn]
    · rw [hdist, hdist, div_le_div_iff_of_pos_right hunit]
      rcases dist_rounded_lt hb hn with hlt | ⟨heq, -⟩
      · exact hlt.le
      · exact heq.le
  · rw [hdist, hdist, div_left_inj' hunit.ne'] at heq
    rcases dist_rounded_lt hb hn with hlt | ⟨-, heven⟩
    · exact absurd heq hlt.ne'
    · exact heven

end Units

end Binary64

namespace Decimal

/-- The number that a decimal stands for. -/
def value (d : Decimal) : ℚ := d.coefficient * 10 ^ d.scale

/-- A decimal is one fraction, whatever its scale. -/
lemma value_eq (d : Decimal) : d.value =
    (d.coefficient * 10 ^ d.scale.toNat : Nat) / (10 ^ (-d.scale).toNat : Nat) := by
  obtain ⟨c, s⟩ := d
  cases s with
  | ofNat k => simp [value]
  | negSucc k => simp [value, zpow_negSucc, div_eq_mul_inv]

/-- **A decimal is read as the double nearest to it**, if that is finite. -/
theorem isNearest_toMagnitude {d : Decimal} (h : d.toMagnitude < Binary64.infinity) :
    Binary64.IsNearest d.value d.toMagnitude := by
  rw [toMagnitude_eq] at h ⊢
  rw [value_eq]
  exact Binary64.isNearest_nearest (Nat.pow_pos (by decide)) h

end Decimal

end LoxLang
