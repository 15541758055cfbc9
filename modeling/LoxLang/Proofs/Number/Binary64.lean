import Mathlib
import LoxLang.Number.Binary64

set_option autoImplicit false

/-!
# Magnitudes and rounding

A double is given by its bit pattern, and a finite one is a number of units. So a fraction that is
a double already is rounded to itself, and rounding depends on the value of a fraction only.

## Main results

* `Binary64.magnitude_ofMagnitude` — a finite double has the magnitude that it was made from.
* `Binary64.zero_le_ofMagnitude` — a double that is made from a magnitude is not negative.
* `Binary64.isFinite_ofMagnitude`, `Binary64.magnitude_lt` — the finite doubles are those with a
  magnitude below infinity.
* `Binary64.ofMagnitude_magnitude` — a double without a sign is made from its magnitude.
* `Binary64.isNaN_iff` — what is not a number has a magnitude beyond infinity.
* `Binary64.toBits_eq_iff` — a double is given by its sign and its magnitude.
* `Binary64.nearest_of_eq` — a fraction that is a double is rounded to it.
* `Binary64.nearest_mul_right` — reducing a fraction does not change what it is rounded to.
-/

namespace LoxLang.Binary64

/-! ## Bit patterns -/

open Float.Model Float.Model.UnpackedFloat

/-- The parts of a bit pattern make it up. -/
lemma packComponents_parts (b : BitVec Format.binary64.numBits) :
    packComponents Format.binary64 (Sign.ofBitVec (unpackSign b)) (unpackExponent b)
      (unpackMantissa b) = b := by
  have hsign : ∀ s : BitVec 1, (Sign.ofBitVec s).toBitVec = s := by decide
  have hparts : ∀ b : BitVec 64,
      b.extractLsb 63 63 ++ b.extractLsb 62 52 ++ b.extractLsb 51 0 = b := by
    intro b
    ext i hi
    simp only [BitVec.getElem_append, BitVec.extractLsb, BitVec.getElem_extractLsb']
    split
    · simp [BitVec.getLsbD_eq_getElem hi]
    · split
      · rw [BitVec.getLsbD_eq_getElem (by omega)]
        congr 1
        omega
      · rw [BitVec.getLsbD_eq_getElem (by omega)]
        congr 1
        omega
  unfold packComponents
  rw [hsign]
  exact hparts b

/-- A number between two powers of two that follow each other has the exponent of the first. -/
lemma log2_of_lt {n k : Nat} (h : 2 ^ k ≤ n) (h' : n < 2 ^ (k + 1)) : n.log2 = k := by
  have hpos := Nat.two_pow_pos k
  exact (Nat.log2_eq_iff (by omega)).2 ⟨h, h'⟩

/-- A leading one in front of a fraction adds its weight. -/
lemma toNat_one_append (m : BitVec 52) : ((1#1 : BitVec 1) ++ m).toNat = 2 ^ 52 + m.toNat := by
  have hlt := m.isLt
  rw [BitVec.toNat_append]
  have hone : (1#1 : BitVec 1).toNat = 1 := rfl
  rw [hone, Nat.shiftLeft_eq, Nat.mul_comm, ← Nat.two_pow_add_eq_or_of_lt hlt 1, Nat.mul_one]

/-- **A finite bit pattern is kept** by taking it apart and making it up again.

**Proof sketch.** Exponent zero stands for zero, or for a fraction without a leading one, which is
below `2 ^ 52`. Any other exponent gives the fraction a leading one, so it lies between `2 ^ 52` and
`2 ^ 53`, and that is what tells the two apart when it is packed. -/
lemma pack_unpack (b : BitVec Format.binary64.numBits) (h : unpackExponent b ≠ -1#_) :
    UnpackedFloat.pack Format.binary64 (UnpackedFloat.unpack Format.binary64 b) = b := by
  have hb := packComponents_parts b
  have hlt : (unpackMantissa b).toNat < 2 ^ 52 := (unpackMantissa b).isLt
  unfold UnpackedFloat.unpack
  simp only [if_neg h]
  split
  · rename_i he
    rw [he] at hb
    split
    · rename_i hm
      rw [hm] at hb
      exact hb
    · rename_i hm
      have hpos : (unpackMantissa b).toNat ≠ 0 := by
        intro hzero
        exact hm (BitVec.eq_of_toNat_eq hzero)
      have hlog : (unpackMantissa b).toNat.log2 < 52 := (Nat.log2_lt hpos).2 hlt
      simp only [UnpackedFloat.pack, he]
      rw [if_neg (by decide), if_neg (by simp [Format.mantissaBits]; omega)]
      simpa using hb
  · have hexp : (unpackExponent b).toNat < 2 ^ 11 := (unpackExponent b).isLt
    have hne : (unpackExponent b).toNat ≠ 2047 := by
      intro hn
      exact h (BitVec.eq_of_toNat_eq hn)
    have hval : ((1#1 : BitVec 1) ++ unpackMantissa b).toNat =
        2 ^ 52 + (unpackMantissa b).toNat := toNat_one_append _
    have hlog : ((1#1 : BitVec 1) ++ unpackMantissa b).toNat.log2 = 52 := by
      rw [hval]
      exact log2_of_lt (by omega) (by omega)
    have hbias : (((unpackExponent b).toNat : Int) - (Format.binary64.exponentBias + (52 : Nat)) +
        Format.binary64.exponentBias + (52 : Nat)).toNat = (unpackExponent b).toNat := by
      omega
    simp only [UnpackedFloat.pack, hlog, hbias]
    have hfraction : BitVec.ofNat 52 ((1#1 : BitVec 1) ++ unpackMantissa b).toNat =
        unpackMantissa b := by
      rw [hval]
      apply BitVec.eq_of_toNat_eq
      rw [BitVec.toNat_ofNat]
      omega
    have hexponent : BitVec.ofNat 11 (unpackExponent b).toNat = unpackExponent b := by simp
    rw [if_neg (by omega), if_pos (by rfl), hfraction, hexponent]
    exact hb

/-- The exponent of a bit pattern, as it stands in it. -/
lemma toNat_unpackExponent (b : BitVec Format.binary64.numBits) :
    (unpackExponent b).toNat = b.toNat / 2 ^ 52 % 2 ^ 11 := by
  simp [unpackExponent, BitVec.extractLsb_toNat, Nat.shiftRight_eq_div_pow]

/-- The exponent of a finite magnitude is not the one of infinity. -/
lemma unpackExponent_ne {b : BitVec Format.binary64.numBits} (h : b.toNat < infinity) :
    unpackExponent b ≠ -1#_ := by
  have hb : b.toNat < 2047 * 2 ^ 52 := h
  intro heq
  have := congrArg BitVec.toNat heq
  rw [toNat_unpackExponent] at this
  change _ = 2047 at this
  omega

/-- A finite magnitude has no sign bit. -/
lemma unpackSign_eq_zero {b : BitVec Format.binary64.numBits} (h : b.toNat < infinity) :
    unpackSign b = 0#1 := by
  have hb : b.toNat < 2047 * 2 ^ 52 := h
  apply BitVec.eq_of_toNat_eq
  simp [unpackSign, BitVec.extractLsb_toNat, Nat.shiftRight_eq_div_pow]
  omega

variable {m : Nat}

/-- A finite magnitude is the bit pattern of the double that it stands for. -/
lemma toBits_ofMagnitude (h : m < infinity) : (ofMagnitude m).toBits.toNat = m := by
  have hm : m < 2047 * 2 ^ 52 := h
  have hnat : (UInt64.ofNat m).toBitVec.toNat = m := by
    rw [UInt64.toNat_toBitVec, UInt64.toNat_ofNat']
    exact Nat.mod_eq_of_lt (by omega)
  have hpack := pack_unpack (UInt64.ofNat m).toBitVec (unpackExponent_ne (by rwa [hnat]))
  show (UnpackedFloat.pack Format.binary64 (UnpackedFloat.unpack Format.binary64
    (UInt64.ofNat m).toBitVec)).toNat = m
  rw [hpack, hnat]

/-- **A finite double has the magnitude that it was made from.** -/
theorem magnitude_ofMagnitude (h : m < infinity) : magnitude (ofMagnitude m) = m := by
  have hm : m < 2047 * 2 ^ 52 := h
  rw [magnitude, toBits_ofMagnitude h, Nat.pow_eq]
  exact Nat.mod_eq_of_lt (by omega)

/-- A double that is made from a magnitude has no sign, infinity included. -/
lemma negative_ofMagnitude (h : m ≤ infinity) : negative (ofMagnitude m) = false := by
  rcases Nat.eq_or_lt_of_le h with rfl | h
  · decide
  · have hm : m < 2047 * 2 ^ 52 := h
    rw [negative, toBits_ofMagnitude h, Nat.pow_eq]
    exact decide_eq_false (by omega)

/-- **A double that is made from a magnitude is not negative**, infinity included. -/
lemma zero_le_ofMagnitude (h : m ≤ infinity) : (0 : Float) ≤ ofMagnitude m := by
  rcases Nat.eq_or_lt_of_le h with rfl | h
  · decide
  · have hbits : (ofMagnitude m).toBits.toBitVec.toNat < infinity := by
      rwa [UInt64.toNat_toBitVec, toBits_ofMagnitude h]
    have hzero : (0 : Float).toModel.unpack = .zero .positive := rfl
    show decide (UnpackedFloat.le (0 : Float).toModel.unpack
      (UnpackedFloat.unpack Format.binary64 (ofMagnitude m).toBits.toBitVec) = true) = true
    rw [hzero]
    unfold UnpackedFloat.unpack
    simp only [if_neg (unpackExponent_ne hbits), unpackSign_eq_zero hbits]
    -- zero or a positive number, whatever the exponent
    split
    · split <;> rfl
    · rfl

/-! ## Finite doubles -/

/-- A bit pattern with another exponent than that of infinity is unpacked to a finite number. -/
lemma isFinite_unpack {b : BitVec Format.binary64.numBits} :
    (UnpackedFloat.unpack Format.binary64 b).isFinite = true ↔ unpackExponent b ≠ -1#_ := by
  unfold UnpackedFloat.unpack
  by_cases h : unpackExponent b = -1#_
  · refine iff_of_false ?_ (not_not_intro h)
    simp only [if_pos h]
    split <;> exact Bool.false_ne_true
  · refine iff_of_true ?_ h
    simp only [if_neg h]
    split
    · split <;> rfl
    · rfl

/-- A double is finite if its exponent is not that of infinity. -/
lemma isFinite_iff {x : Float} :
    x.isFinite = true ↔ @unpackExponent Format.binary64 x.toBits.toBitVec ≠ -1#_ :=
  isFinite_unpack

/-- A magnitude below infinity stands for a finite double. -/
lemma isFinite_ofMagnitude (h : m < infinity) : (ofMagnitude m).isFinite = true := by
  have hbits : (ofMagnitude m).toBits.toBitVec.toNat < infinity := by
    rwa [UInt64.toNat_toBitVec, toBits_ofMagnitude h]
  exact isFinite_iff.2 (unpackExponent_ne hbits)

/-- A double without a sign is made from its magnitude. -/
lemma ofMagnitude_magnitude {x : Float} (h : negative x = false) :
    ofMagnitude (magnitude x) = x := by
  have hlt : x.toBits.toNat < 2 ^ 63 := by simpa [negative] using h
  rw [ofMagnitude, magnitude, Nat.pow_eq, Nat.mod_eq_of_lt hlt, UInt64.ofNat_toNat,
    Float.ofBits_toBits]

/-- A finite double has a magnitude below infinity. -/
lemma magnitude_lt {x : Float} (hf : x.isFinite = true) : magnitude x < infinity := by
  have hne := isFinite_iff.1 hf
  have hexp : (@unpackExponent Format.binary64 x.toBits.toBitVec).toNat ≠ 2047 := by
    intro h
    exact hne (BitVec.eq_of_toNat_eq h)
  rw [toNat_unpackExponent, UInt64.toNat_toBitVec] at hexp
  show x.toBits.toNat % 2 ^ 63 < 2047 * 2 ^ 52
  omega

/-! ## All bits -/

/-- A bit pattern is unpacked to what is not a number if it has the exponent of infinity and a
fraction. -/
lemma isNaN_unpack {b : BitVec Format.binary64.numBits} :
    (UnpackedFloat.unpack Format.binary64 b).isNaN = true ↔
      unpackExponent b = -1#_ ∧ unpackMantissa b ≠ 0#_ := by
  unfold UnpackedFloat.unpack
  by_cases h : unpackExponent b = -1#_
  · simp only [if_pos h]
    split <;> simp_all [UnpackedFloat.isNaN]
  · refine iff_of_false ?_ fun hand => h hand.1
    simp only [if_neg h]
    split
    · split <;> exact Bool.false_ne_true
    · exact Bool.false_ne_true

/-- The fraction of a bit pattern, as it stands in it. -/
lemma toNat_unpackMantissa (b : BitVec Format.binary64.numBits) :
    (unpackMantissa b).toNat = b.toNat % 2 ^ 52 := by
  simp [unpackMantissa, BitVec.extractLsb_toNat]

/-- What is not a number has a magnitude beyond infinity. -/
lemma isNaN_iff {x : Float} : x.isNaN = true ↔ infinity < magnitude x := by
  have hunpack : x.isNaN = true ↔ @unpackExponent Format.binary64 x.toBits.toBitVec = -1#_ ∧
      @unpackMantissa Format.binary64 x.toBits.toBitVec ≠ 0#_ := isNaN_unpack
  have hexponent : @unpackExponent Format.binary64 x.toBits.toBitVec = -1#_ ↔
      x.toBits.toNat / 2 ^ 52 % 2 ^ 11 = 2047 := by
    rw [← BitVec.toNat_inj, toNat_unpackExponent, UInt64.toNat_toBitVec]
    rfl
  have hmantissa : @unpackMantissa Format.binary64 x.toBits.toBitVec = 0#_ ↔
      x.toBits.toNat % 2 ^ 52 = 0 := by
    rw [← BitVec.toNat_inj, toNat_unpackMantissa, UInt64.toNat_toBitVec]
    rfl
  rw [hunpack, hexponent, ne_eq, hmantissa]
  show _ ↔ 2047 * 2 ^ 52 < x.toBits.toNat % 2 ^ 63
  omega

/-- The bits of a double are its sign and its magnitude. -/
lemma toNat_toBits (x : Float) :
    x.toBits.toNat = (if negative x then 2 ^ 63 else 0) + magnitude x := by
  have hlt : x.toBits.toNat < 2 ^ 64 := x.toBits.toNat_lt
  unfold negative magnitude
  simp only [Nat.pow_eq, decide_eq_true_eq]
  split <;> omega

/-- Doubles with the same sign and the same magnitude are the same. -/
lemma toBits_eq_iff {x y : Float} :
    x.toBits = y.toBits ↔ negative x = negative y ∧ magnitude x = magnitude y := by
  constructor
  · intro h
    simp only [negative, magnitude, h, and_self]
  · rintro ⟨hsign, hmagnitude⟩
    apply UInt64.toNat_inj.1
    rw [toNat_toBits, toNat_toBits, hsign, hmagnitude]

/-! ## Rounding -/

/-- A common factor of a fraction makes no difference to rounding it. -/
lemma roundHalfEven_mul_right (a b : Nat) {k : Nat} (hk : 0 < k) :
    roundHalfEven (a * k) (b * k) = roundHalfEven a b := by
  have hlt : ∀ x y : Nat, 2 * (x * k) < y * k ↔ 2 * x < y := by
    intro x y
    rw [← Nat.mul_assoc]
    exact Nat.mul_lt_mul_right hk
  have hgt : ∀ x y : Nat, y * k < 2 * (x * k) ↔ y < 2 * x := by
    intro x y
    rw [← Nat.mul_assoc]
    exact Nat.mul_lt_mul_right hk
  simp only [roundHalfEven, Nat.mul_div_mul_right a b hk, Nat.mul_mod_mul_right, hlt, hgt]

/-- **Reducing a fraction does not change what it is rounded to.** -/
theorem nearest_mul_right (a b : Nat) {k : Nat} (hk : 0 < k) :
    nearest (a * k) (b * k) = nearest a b := by
  have hnum : a * k * unitsPerOne = a * unitsPerOne * k := Nat.mul_right_comm a k unitsPerOne
  have hden : ∀ s, b * k * s = b * s * k := fun s => Nat.mul_right_comm b k s
  simp only [nearest, hnum, hden, Nat.mul_div_mul_right _ _ hk, roundHalfEven_mul_right _ _ hk]

/-- Equal fractions are rounded to the same double. -/
lemma nearest_congr {a b c d : Nat} (hb : 0 < b) (hd : 0 < d) (h : a * d = c * b) :
    nearest a b = nearest c d := by
  rw [← nearest_mul_right a b hd, ← nearest_mul_right c d hb, h, Nat.mul_comm b d]

/-- The units of a magnitude from its exponent and its fraction. -/
lemma units_eq (m : Nat) : units m =
    if m / 2 ^ 52 = 0 then m % 2 ^ 52 else (2 ^ 52 + m % 2 ^ 52) * 2 ^ (m / 2 ^ 52 - 1) := by
  simp only [units, Nat.pow_eq]

/-- The units of a magnitude are a whole number of less than 54 binary digits, shifted. -/
lemma exists_units_eq (m : Nat) :
    ∃ q, units m = q * 2 ^ ((units m).log2 - 52) ∧ m = ((units m).log2 - 52) * 2 ^ 52 + q := by
  have hmod : m % 2 ^ 52 < 2 ^ 52 := Nat.mod_lt m (Nat.two_pow_pos 52)
  have hdiv : m / 2 ^ 52 * 2 ^ 52 + m % 2 ^ 52 = m := Nat.div_add_mod' m (2 ^ 52)
  by_cases he : m / 2 ^ 52 = 0
  · have hunits : units m = m % 2 ^ 52 := by rw [units_eq, if_pos he]
    have hlog : (m % 2 ^ 52).log2 - 52 = 0 := by
      by_cases hz : m % 2 ^ 52 = 0
      · rw [hz]
        rfl
      · have := (Nat.log2_lt hz).2 hmod
        omega
    refine ⟨m % 2 ^ 52, ?_, ?_⟩
    · rw [hunits, hlog, Nat.pow_zero, Nat.mul_one]
    · rw [hunits, hlog]
      omega
  · obtain ⟨e, he'⟩ : ∃ e, m / 2 ^ 52 = e + 1 := ⟨m / 2 ^ 52 - 1, by omega⟩
    have hunits : units m = (2 ^ 52 + m % 2 ^ 52) * 2 ^ e := by
      rw [units_eq, if_neg he, he', Nat.add_sub_cancel]
    have hlog : ((2 ^ 52 + m % 2 ^ 52) * 2 ^ e).log2 = 52 + e := by
      apply log2_of_lt
      · rw [Nat.pow_add]
        exact Nat.mul_le_mul_right _ (by omega)
      · rw [Nat.add_right_comm, Nat.pow_add]
        exact Nat.mul_lt_mul_of_pos_right (by omega) (Nat.two_pow_pos e)
    refine ⟨2 ^ 52 + m % 2 ^ 52, ?_, ?_⟩
    · rw [hunits, hlog, Nat.add_sub_cancel_left]
    · rw [hunits, hlog, Nat.add_sub_cancel_left]
      rw [he'] at hdiv
      omega

/-- **A fraction that is a double is rounded to it.** -/
theorem nearest_of_eq {a b : Nat} (hm : m < infinity) (hb : 0 < b)
    (h : a * unitsPerOne = units m * b) : nearest a b = m := by
  obtain ⟨q, hq, hmq⟩ := exists_units_eq m
  have hround : roundHalfEven (units m * b) (b * 2 ^ ((units m).log2 - 52)) = q := by
    have hden : 0 < b * 2 ^ ((units m).log2 - 52) := Nat.mul_pos hb (Nat.two_pow_pos _)
    have hnum : units m * b = q * (b * 2 ^ ((units m).log2 - 52)) :=
      calc units m * b = q * 2 ^ ((units m).log2 - 52) * b := by rw [← hq]
        _ = q * (b * 2 ^ ((units m).log2 - 52)) := by rw [Nat.mul_assoc, Nat.mul_comm b]
    rw [hnum, roundHalfEven_mul q hden]
  simp only [nearest, Nat.pow_eq, h, Nat.mul_div_cancel _ hb, hround, ← hmq]
  exact Nat.min_eq_left (Nat.le_of_lt hm)

/-- What a fraction is rounded to is at most infinite. -/
lemma nearest_le (a b : Nat) : nearest a b ≤ infinity := Nat.min_le_right _ _

end LoxLang.Binary64
