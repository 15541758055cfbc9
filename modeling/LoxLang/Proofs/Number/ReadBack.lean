import Mathlib
import LoxLang.Number.Written
import LoxLang.Proofs.Number.Binary64

set_option autoImplicit false

/-!
# Numbers in source read back

The text that is written for a finite double in source is a numeral, and reading that numeral gives
the double back.

## Main definitions

* `Numeral` — a text is digits, or digits, a point and digits.

## Main results

* `Decimal.toMagnitude_shortest` — the shortest decimal of a magnitude reads back.
* `Decimal.numeral_plain` — writing a decimal without an exponent keeps its value.
* `sourceNumber_ofMagnitude` — what is written for a double in source reads back.
-/

namespace LoxLang

open Binary64 (nearest infinity units unitsPerOne)

/-- Digits, at least one. -/
structure Digits (text : List Char) : Prop where
  ne_nil : text ≠ []
  isDigit : ∀ c ∈ text, c.isDigit = true

/-- A text is digits, or digits, a point and digits. -/
inductive Numeral : List Char → Prop
  | whole {text : List Char} (h : Digits text) : Numeral text
  | pointed {text fraction : List Char} (h : Digits text) (h' : Digits fraction) :
    Numeral (text ++ '.' :: fraction)

/-- A numeral is a text. -/
lemma Numeral.ne_nil {text : List Char} (h : Numeral text) : text ≠ [] := by
  cases h with
  | whole h => exact h.ne_nil
  | pointed => simp

/-- A numeral begins with a digit. -/
lemma Numeral.isDigit_head {c : Char} {text : List Char} (h : Numeral (c :: text)) :
    c.isDigit = true := by
  generalize hall : c :: text = all at h
  cases h with
  | whole h => exact h.isDigit c (by simp [← hall])
  | pointed h =>
    obtain ⟨d, ds, rfl⟩ := List.exists_cons_of_ne_nil h.ne_nil
    obtain ⟨rfl, -⟩ : c = d ∧ _ := by simpa using hall
    exact h.isDigit c (by simp)

/-- The digits of a number are digits. -/
lemma digits_toDigits (n : Nat) : Digits (Nat.toDigits 10 n) :=
  ⟨Nat.toDigits_ne_nil, fun _ hc => Nat.isDigit_of_mem_toDigits (by decide) (by decide) hc⟩

/-- Zeros in front of digits are digits. -/
lemma Digits.zeros_append {text : List Char} (h : Digits text) (n : Nat) :
    Digits (List.replicate n '0' ++ text) := by
  refine ⟨by simp [h.ne_nil], fun c hc => ?_⟩
  rcases List.mem_append.1 hc with hc | hc
  · rw [List.eq_of_mem_replicate hc]
    rfl
  · exact h.isDigit c hc

/-- Zeros behind digits are digits. -/
lemma Digits.append_zeros {text : List Char} (h : Digits text) (n : Nat) :
    Digits (text ++ List.replicate n '0') := by
  refine ⟨by simp [h.ne_nil], fun c hc => ?_⟩
  rcases List.mem_append.1 hc with hc | hc
  · exact h.isDigit c hc
  · rw [List.eq_of_mem_replicate hc]
    rfl

namespace Decimal

/-! ## The value of a decimal -/

/-- A decimal is read as one fraction, whatever its scale. -/
lemma toMagnitude_eq (d : Decimal) :
    d.toMagnitude = nearest (d.coefficient * 10 ^ d.scale.toNat) (10 ^ (-d.scale).toNat) := by
  obtain ⟨c, s⟩ := d
  cases s with
  | ofNat k => simp [toMagnitude]
  | negSucc k => simp [toMagnitude]

/-- No decimal is read as more than infinity. -/
lemma toMagnitude_le (d : Decimal) : d.toMagnitude ≤ infinity := by
  rw [toMagnitude_eq]
  exact Binary64.nearest_le _ _

/-- Moving a trailing zero into the scale does not change what a decimal is read as. -/
lemma toMagnitude_mul_ten (c : Nat) (s : Int) :
    toMagnitude ⟨c * 10, s⟩ = toMagnitude ⟨c, s + 1⟩ := by
  rw [toMagnitude_eq, toMagnitude_eq]
  apply Binary64.nearest_congr (Nat.pow_pos (by decide)) (Nat.pow_pos (by decide))
  dsimp only
  cases s with
  | ofNat k =>
    have hnext : (Int.ofNat k + 1).toNat = k + 1 := rfl
    have hneg : (-(Int.ofNat k + 1)).toNat = 0 := rfl
    have hneg' : (-Int.ofNat k).toNat = 0 := by simp
    have hk : (Int.ofNat k).toNat = k := rfl
    rw [hnext, hneg, hneg', hk, Nat.pow_succ, Nat.mul_assoc c, Nat.mul_comm 10]
  | negSucc k =>
    have hnext : (Int.negSucc k + 1).toNat = 0 := by omega
    have hneg : (-(Int.negSucc k + 1)).toNat = k := by omega
    have hneg' : (-Int.negSucc k).toNat = k + 1 := by omega
    have hzero : (Int.negSucc k).toNat = 0 := by omega
    rw [hnext, hneg, hneg', hzero, Nat.pow_zero, Nat.mul_one, Nat.mul_one, Nat.pow_succ,
      Nat.mul_assoc, Nat.mul_comm 10]

/-- Moving trailing zeros into the scale does not change what a decimal is read as. -/
lemma toMagnitude_trim (d : Decimal) : d.trim.toMagnitude = d.toMagnitude := by
  fun_induction trim d with
  | case1 d h ih =>
    rw [ih, ← toMagnitude_mul_ten, Nat.div_mul_cancel (Nat.dvd_of_mod_eq_zero h.2)]
  | case2 d h => rfl

variable {m : Nat}

/-- A magnitude written out in full reads back. -/
lemma toMagnitude_exact (h : m < infinity) : (exact m).toMagnitude = m := by
  rw [toMagnitude_eq]
  apply Binary64.nearest_of_eq h (Nat.pow_pos (by decide))
  have hten : ∀ n, 5 ^ n * 2 ^ n = 10 ^ n := fun n => (Nat.mul_pow 5 2 n).symm
  have hscale : (exact m).scale.toNat = 0 := rfl
  have hneg : (-(exact m).scale).toNat = 1074 := rfl
  rw [hscale, hneg, Nat.pow_zero, Nat.mul_one]
  unfold exact unitsPerOne
  generalize 1074 = k
  rw [Nat.pow_eq, Nat.pow_eq, Nat.mul_assoc, hten]

/-- **The shortest decimal of a magnitude reads back.** -/
theorem toMagnitude_shortest (h : m < infinity) : (shortest m).toMagnitude = m := by
  unfold shortest
  rw [toMagnitude_trim]
  generalize hfound : List.findSome? _ _ = found
  cases found with
  | none => exact toMagnitude_exact h
  | some d =>
    obtain ⟨n, -, hn⟩ := List.exists_of_findSome?_eq_some hfound
    exact toMagnitude_of_candidate? hn

/-! ## The text of a decimal -/

/-- Digits alone are a whole number. -/
lemma ofNumeral_of_digits {text : List Char} (h : Digits text) :
    ofNumeral text = ⟨Nat.ofDigitChars 10 text 0, 0⟩ := by
  have htake : text.takeWhile Char.isDigit = text :=
    List.takeWhile_eq_self_iff.2 h.isDigit
  have hdrop : text.dropWhile Char.isDigit = [] :=
    List.dropWhile_eq_nil_iff.2 h.isDigit
  simp [ofNumeral, htake, hdrop]

/-- The digits behind a point lower the scale. -/
lemma ofNumeral_of_pointed {text : List Char} (h : Digits text) (fraction : List Char) :
    ofNumeral (text ++ '.' :: fraction) =
      ⟨Nat.ofDigitChars 10 (text ++ fraction) 0, -(fraction.length : Int)⟩ := by
  have hpoint : Char.isDigit '.' = false := by decide
  have htake : (text ++ '.' :: fraction).takeWhile Char.isDigit = text := by
    rw [List.takeWhile_append_of_pos h.isDigit, List.takeWhile_cons_of_neg (by simp [hpoint]),
      List.append_nil]
  have hdrop : (text ++ '.' :: fraction).dropWhile Char.isDigit = '.' :: fraction := by
    rw [List.dropWhile_append_of_pos h.isDigit, List.dropWhile_cons_of_neg (by simp [hpoint])]
  simp [ofNumeral, htake, hdrop]

/-- A decimal without an exponent is a numeral that denotes a decimal of the same value. -/
lemma numeral_plain (d : Decimal) :
    Numeral d.plain ∧ (ofNumeral d.plain).toMagnitude = d.toMagnitude := by
  have hdigits : Digits d.digits := digits_toDigits d.coefficient
  have hvalue : Nat.ofDigitChars 10 d.digits 0 = d.coefficient := Nat.ofDigitChars_ten_toDigits
  obtain ⟨c, s⟩ := d
  cases s with
  | ofNat k =>
    have hplain := hdigits.append_zeros k
    refine ⟨.whole hplain, ?_⟩
    show (ofNumeral (digits ⟨c, Int.ofNat k⟩ ++ List.replicate k '0')).toMagnitude = _
    rw [ofNumeral_of_digits hplain, Nat.ofDigitChars_append, hvalue,
      Nat.ofDigitChars_replicate_zero, toMagnitude_eq, toMagnitude_eq]
    simp [Nat.mul_comm]
  | negSucc k =>
    -- zeros are filled in so that there is a digit before the point
    have hpadded := hdigits.zeros_append (k + 2 - (digits ⟨c, Int.negSucc k⟩).length)
    generalize hp : List.replicate (k + 2 - (digits ⟨c, Int.negSucc k⟩).length) '0' ++
      digits ⟨c, Int.negSucc k⟩ = padded at hpadded
    have hlength : k + 2 ≤ padded.length := by
      rw [← hp, List.length_append, List.length_replicate]
      omega
    have hwhole : Digits (padded.take (padded.length - (k + 1))) := by
      refine ⟨?_, fun c hc => hpadded.isDigit c (List.mem_of_mem_take hc)⟩
      rw [← List.length_pos_iff, List.length_take]
      omega
    have hfraction : Digits (padded.drop (padded.length - (k + 1))) := by
      refine ⟨?_, fun c hc => hpadded.isDigit c (List.mem_of_mem_drop hc)⟩
      rw [← List.length_pos_iff, List.length_drop]
      omega
    have hplain : plain ⟨c, Int.negSucc k⟩ = padded.take (padded.length - (k + 1)) ++
        '.' :: padded.drop (padded.length - (k + 1)) := by
      rw [plain]
      dsimp only
      rw [hp]
    have hread : Nat.ofDigitChars 10 padded 0 = c := by
      rw [← hp, Nat.ofDigitChars_append, Nat.ofDigitChars_replicate_zero, Nat.mul_zero]
      exact hvalue
    have hscale : -((padded.drop (padded.length - (k + 1))).length : Int) = Int.negSucc k := by
      rw [List.length_drop]
      omega
    rw [hplain]
    refine ⟨.pointed hwhole hfraction, ?_⟩
    rw [ofNumeral_of_pointed hwhole, List.take_append_drop, hread, hscale]

end Decimal

/-! ## The text of a double in source -/

/-- A whole magnitude is read back from the digits of its whole part. -/
lemma toMagnitude_ofNumeral_whole {m : Nat} (h : m < infinity) (hw : Binary64.isWhole m = true) :
    (Decimal.ofNumeral (Nat.toDigits 10 (Binary64.whole m))).toMagnitude = m := by
  have hmod : units m % unitsPerOne = 0 := by simpa [Binary64.isWhole] using hw
  have hunits : units m / unitsPerOne * unitsPerOne = units m :=
    Nat.div_mul_cancel (Nat.dvd_of_mod_eq_zero hmod)
  rw [Decimal.ofNumeral_of_digits (digits_toDigits _), Nat.ofDigitChars_ten_toDigits,
    Decimal.toMagnitude_eq]
  apply Binary64.nearest_of_eq h (by simp)
  simpa [Binary64.whole] using hunits

/-- **What is written for a finite double in source reads back**: it is a numeral, and the double
is what that numeral stands for. -/
theorem sourceNumber_ofMagnitude {m : Nat} (h : m < infinity) :
    ∃ text, sourceNumber (Binary64.ofMagnitude m) = String.ofList text ∧ Numeral text ∧
      (Decimal.ofNumeral text).toMagnitude = m := by
  let style : NumberStyle := ⟨.digits, false, false, "Infinity", "NaN"⟩
  have hwrite : sourceNumber (Binary64.ofMagnitude m) = String.ofList (style.finite m) := by
    simp only [sourceNumber, NumberStyle.write, Binary64.magnitude_ofMagnitude h,
      Binary64.negative_ofMagnitude h.le]
    rw [if_neg (by omega), if_neg (by omega)]
    simp [style]
  refine ⟨style.finite m, hwrite, ?_⟩
  unfold NumberStyle.finite
  cases hw : Binary64.isWhole m with
  | true =>
    simp only [style, decide_true, Bool.true_or, Bool.and_self, if_true]
    rw [if_neg (by decide), List.append_nil]
    exact ⟨.whole (digits_toDigits _), toMagnitude_ofNumeral_whole h hw⟩
  | false =>
    simp only [Bool.false_and, Bool.false_eq_true, if_false]
    have hplain : style.fewestDigits m = (Decimal.shortest m).plain := by
      simp [NumberStyle.fewestDigits, style]
    obtain ⟨hnumeral, hread⟩ := Decimal.numeral_plain (Decimal.shortest m)
    rw [hplain]
    exact ⟨hnumeral, hread.trans (Decimal.toMagnitude_shortest h)⟩

end LoxLang
