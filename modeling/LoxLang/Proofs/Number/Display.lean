import Mathlib
import LoxLang.Proofs.Number.Nearest
import LoxLang.Value

set_option autoImplicit false

/-!
# Printed numbers are faithful

A program prints a finite double as a numeral, with an exponent if it is very small, and the double
nearest to that numeral is the one that was printed. So two doubles print alike only if they are the
same, the zeros with their signs and the infinities included.

## Main definitions

* `Decimal.ofText?`, `Decimal.ofSigned?` — the decimal that a text denotes, without and with a sign.
* `displayedParts?` — the sign and the magnitude that a printed text tells.

## Main results

* `Decimal.ofText?_scientific` — a decimal written with an exponent denotes itself.
* `NumberStyle.ofText?_finite` — what is written for a finite magnitude reads back.
* `Value.display_number_faithful` — printed numbers are faithful.
-/

namespace LoxLang

open Binary64 (infinity magnitude negative)

/-! ## Texts that denote decimals -/

namespace Decimal

instance (text : List Char) : Decidable (Digits text) :=
  decidable_of_iff (text ≠ [] ∧ ∀ c ∈ text, c.isDigit = true)
    ⟨fun h => ⟨h.1, h.2⟩, fun h => ⟨h.ne_nil, h.isDigit⟩⟩

/-- A numeral is digits behind which there is nothing, or a point and digits. -/
lemma numeral_iff {text : List Char} : Numeral text ↔
    Digits (text.takeWhile Char.isDigit) ∧
      (text.dropWhile Char.isDigit = [] ∨
        (text.dropWhile Char.isDigit).head? = some '.' ∧
          Digits (text.dropWhile Char.isDigit).tail) := by
  constructor
  · rintro (h | ⟨h, h'⟩)
    · rw [List.takeWhile_eq_self_iff.2 h.isDigit, List.dropWhile_eq_nil_iff.2 h.isDigit]
      exact ⟨h, .inl rfl⟩
    · rw [List.takeWhile_append_of_pos h.isDigit, List.dropWhile_append_of_pos h.isDigit,
        List.takeWhile_cons_of_neg (by decide), List.dropWhile_cons_of_neg (by decide),
        List.append_nil]
      exact ⟨h, .inr ⟨rfl, h'⟩⟩
  · rintro ⟨h, hrest⟩
    rw [← List.takeWhile_append_dropWhile (p := Char.isDigit) (l := text)]
    rcases hrest with hnil | ⟨hpoint, hfraction⟩
    · rw [hnil, List.append_nil]
      exact .whole h
    · obtain ⟨fraction, hcons⟩ := List.head?_eq_some_iff.1 hpoint
      rw [hcons] at hfraction ⊢
      exact .pointed h hfraction

instance (text : List Char) : Decidable (Numeral text) := decidable_of_iff _ numeral_iff.symm

/-- The power of ten by which what stands behind a numeral multiplies it: there may be nothing, or
an `e`, a sign and digits. -/
def exponent? : List Char → Option Int
  | [] => some 0
  | 'e' :: '+' :: size => if Digits size then some (Nat.ofDigitChars 10 size 0) else none
  | 'e' :: '-' :: size => if Digits size then some (-(Nat.ofDigitChars 10 size 0 : Int)) else none
  | _ => none

/-- The decimal that a text denotes: a numeral, perhaps with an exponent. -/
def ofText? (text : List Char) : Option Decimal :=
  let numeral := text.takeWhile (· ≠ 'e')
  if Numeral numeral then
    (exponent? (text.dropWhile (· ≠ 'e'))).map fun e =>
      ⟨(ofNumeral numeral).coefficient, (ofNumeral numeral).scale + e⟩
  else none

/-- The sign and the decimal that a text denotes. -/
def ofSigned? : List Char → Option (Bool × Decimal)
  | '-' :: text => (ofText? text).map (true, ·)
  | text => (ofText? text).map (false, ·)

/-- No numeral holds an exponent. -/
lemma ne_e_of_mem {text : List Char} (h : Numeral text) {c : Char} (hc : c ∈ text) : c ≠ 'e' := by
  rintro rfl
  have hdigit : ¬ Char.isDigit 'e' = true := by decide
  cases h with
  | whole h => exact hdigit (h.isDigit _ hc)
  | pointed h h' =>
    rcases List.mem_append.1 hc with hc | hc
    · exact hdigit (h.isDigit _ hc)
    · rcases List.mem_cons.1 hc with hc | hc
      · contradiction
      · exact hdigit (h'.isDigit _ hc)

/-- What stands behind a numeral moves its point. -/
lemma ofText?_append {text rest : List Char} (h : Numeral text)
    (hrest : ∀ c ∈ rest.head?, c = 'e') :
    ofText? (text ++ rest) = (exponent? rest).map fun e =>
      ⟨(ofNumeral text).coefficient, (ofNumeral text).scale + e⟩ := by
  have hnumeral : ∀ c ∈ text, decide (c ≠ 'e') = true := by
    intro c hc
    exact decide_eq_true (ne_e_of_mem h hc)
  have hstop : rest.takeWhile (fun c => decide (c ≠ 'e')) = [] ∧
      rest.dropWhile (fun c => decide (c ≠ 'e')) = rest := by
    cases rest with
    | nil => exact ⟨rfl, rfl⟩
    | cons c rest =>
      obtain rfl : c = 'e' := hrest c rfl
      exact ⟨rfl, rfl⟩
  unfold ofText?
  dsimp only
  rw [List.takeWhile_append_of_pos hnumeral, List.dropWhile_append_of_pos hnumeral, hstop.1,
    hstop.2, List.append_nil, if_pos h]

/-- A numeral by itself denotes what it denotes as a numeral. -/
lemma ofText?_numeral {text : List Char} (h : Numeral text) :
    ofText? text = some (ofNumeral text) := by
  have hread : ofText? (text ++ []) = _ := ofText?_append h (by simp)
  simpa [exponent?] using hread

/-- Digits with a point behind the first of them denote what is below ten. -/
lemma numeral_mantissa (d : Decimal) :
    let text := d.digits.take 1 ++ if d.digits.length ≤ 1 then [] else '.' :: d.digits.drop 1
    Numeral text ∧ ofNumeral text = ⟨d.coefficient, 1 - d.digits.length⟩ := by
  have hdigits : Digits d.digits := digits_toDigits d.coefficient
  have hvalue : Nat.ofDigitChars 10 d.digits 0 = d.coefficient := Nat.ofDigitChars_ten_toDigits
  obtain ⟨c, rest, hcons⟩ := List.exists_cons_of_ne_nil hdigits.ne_nil
  rw [hcons] at hdigits hvalue ⊢
  have hfirst : Digits [c] := ⟨by simp, by simpa using hdigits.isDigit c (by simp)⟩
  cases rest with
  | nil => exact ⟨.whole hfirst, by rw [← hvalue]; exact ofNumeral_of_digits hfirst⟩
  | cons c' rest =>
    have hrest : Digits (c' :: rest) :=
      ⟨by simp, fun x hx => hdigits.isDigit x (List.mem_cons_of_mem c hx)⟩
    have htext : (c :: c' :: rest).take 1 ++ (if (c :: c' :: rest).length ≤ 1 then []
        else '.' :: (c :: c' :: rest).drop 1) = [c] ++ '.' :: c' :: rest := by
      simp
    rw [htext]
    refine ⟨.pointed hfirst hrest, ?_⟩
    rw [ofNumeral_of_pointed hfirst, List.singleton_append, hvalue]
    simp

/-- An exponent that is written is read again, however many zeros are in front of its digits. -/
lemma exponent?_written (e : Int) (zeros : Nat) :
    exponent? (['e', if e < 0 then '-' else '+'] ++ List.replicate zeros '0' ++
      Nat.toDigits 10 e.natAbs) = some e := by
  have hsize : Digits (List.replicate zeros '0' ++ Nat.toDigits 10 e.natAbs) :=
    (digits_toDigits e.natAbs).zeros_append zeros
  have hvalue : Nat.ofDigitChars 10 (List.replicate zeros '0' ++ Nat.toDigits 10 e.natAbs) 0 =
      e.natAbs := by
    rw [Nat.ofDigitChars_append, Nat.ofDigitChars_replicate_zero, Nat.mul_zero,
      Nat.ofDigitChars_ten_toDigits]
  rw [List.append_assoc]
  by_cases he : e < 0
  · rw [if_pos he, List.cons_append, List.cons_append, List.nil_append, exponent?, if_pos hsize,
      hvalue]
    congr 1
    omega
  · rw [if_neg he, List.cons_append, List.cons_append, List.nil_append, exponent?, if_pos hsize,
      hvalue]
    congr 1
    omega

/-- **A decimal written with an exponent denotes itself.** -/
theorem ofText?_scientific (d : Decimal) : ofText? d.scientific = some d := by
  obtain ⟨hnumeral, hmantissa⟩ := numeral_mantissa d
  have hscale : (1 - (d.digits.length : Int)) + (d.point - 1) = d.scale := by
    unfold point
    omega
  unfold scientific
  dsimp only
  rw [List.append_assoc, List.append_assoc, ← List.append_assoc ['e', _],
    ofText?_append hnumeral (by simp), exponent?_written, hmantissa]
  simp [hscale]

end Decimal

/-! ## Texts of doubles -/

/-- **What is written for a finite magnitude reads back**, if whole numbers are written with all
their digits. -/
theorem NumberStyle.ofText?_finite {style : NumberStyle} (hs : style.whole = .digits) {m : Nat}
    (h : m < infinity) :
    ∃ d, Decimal.ofText? (style.finite m) = some d ∧ d.toMagnitude = m := by
  unfold finite
  cases hw : Binary64.isWhole m with
  | true =>
    have hdigits : Digits (Nat.toDigits 10 (Binary64.whole m)) := digits_toDigits _
    have htext : (Nat.toDigits 10 (Binary64.whole m) ++
        if style.whole = .pointed then ['.', '0'] else []) =
        Nat.toDigits 10 (Binary64.whole m) := by
      simp [hs]
    rw [if_pos (by simp [hs]), htext]
    exact ⟨_, Decimal.ofText?_numeral (.whole hdigits), toMagnitude_ofNumeral_whole h hw⟩
  | false =>
    have hshortest := Decimal.toMagnitude_shortest h
    rw [Bool.false_and, if_neg Bool.false_ne_true]
    unfold fewestDigits
    dsimp only
    split
    · exact ⟨_, Decimal.ofText?_scientific _, hshortest⟩
    · obtain ⟨hnumeral, hread⟩ := Decimal.numeral_plain (Decimal.shortest m)
      rw [if_neg (by simp [hs])]
      exact ⟨_, Decimal.ofText?_numeral hnumeral, hread.trans hshortest⟩

/-- A text that denotes a decimal has no sign in front. -/
lemma Decimal.ofSigned?_of_ofText? {text : List Char} {d : Decimal} (h : ofText? text = some d) :
    ofSigned? text = some (false, d) := by
  have hunsigned : ∀ rest, text ≠ '-' :: rest := by
    rintro rest rfl
    have hno : ¬ Numeral (('-' :: rest).takeWhile (· ≠ 'e')) := by
      rw [List.takeWhile_cons_of_pos (by decide)]
      intro hnumeral
      exact absurd hnumeral.isDigit_head (by decide)
    unfold ofText? at h
    dsimp only at h
    rw [if_neg hno] at h
    contradiction
  unfold ofSigned?
  split
  · exact absurd rfl (hunsigned _)
  · rw [h]
    rfl

section Displayed

variable {x y : Float}

/-- What is not a number is printed by a word. -/
lemma displayNumber_of_infinity_lt (h : infinity < magnitude x) : displayNumber x = "NaN" := by
  rw [displayNumber, NumberStyle.write, if_pos h]

/-- An infinity is printed by a word, with its sign. -/
lemma displayNumber_of_eq_infinity (h : magnitude x = infinity) :
    displayNumber x = if negative x then "-Infinity" else "Infinity" := by
  have hne : (infinity != 0) = true := by decide
  rw [displayNumber, NumberStyle.write]
  simp only [h, hne, Nat.lt_irrefl, if_false, if_true, Bool.or_self, Bool.and_true]
  split <;> rfl

/-- **A finite double is printed as a numeral that reads back**, with its sign. -/
theorem ofSigned?_displayNumber (h : magnitude x < infinity) :
    ∃ d, Decimal.ofSigned? (displayNumber x).toList = some (negative x, d) ∧
      d.toMagnitude = magnitude x := by
  let style : NumberStyle := ⟨.digits, true, true, "Infinity", "NaN"⟩
  have hwhole : style.whole = .digits := rfl
  obtain ⟨d, hd, hread⟩ := NumberStyle.ofText?_finite hwhole h
  refine ⟨d, ?_, hread⟩
  have htext : (displayNumber x).toList =
      (if negative x then "-" else "").toList ++ style.finite (magnitude x) := by
    have hwrite : displayNumber x =
        (if negative x then "-" else "") ++ String.ofList (style.finite (magnitude x)) := by
      rw [displayNumber, NumberStyle.write, if_neg h.not_gt, if_neg h.ne]
      simp [style]
    rw [hwrite, String.toList_append, String.toList_ofList]
  rw [htext]
  cases negative x with
  | true =>
    show (Decimal.ofText? (style.finite (magnitude x))).map (true, ·) = _
    rw [hd]
    rfl
  | false => exact Decimal.ofSigned?_of_ofText? hd

/-- What a printed text tells of a number: its sign and its magnitude, or nothing if it is none. -/
def displayedParts? (text : String) : Option (Bool × Nat) :=
  if text = "Infinity" then some (false, infinity)
  else if text = "-Infinity" then some (true, infinity)
  else (Decimal.ofSigned? text.toList).map fun (sign, d) => (sign, d.toMagnitude)

/-- A printed text tells the sign and the magnitude of every number. -/
lemma displayedParts?_displayNumber (h : magnitude x ≤ infinity) :
    displayedParts? (displayNumber x) = some (negative x, magnitude x) := by
  rcases h.lt_or_eq with hlt | heq
  · obtain ⟨d, hd, hread⟩ := ofSigned?_displayNumber hlt
    have hne : ∀ word : String, Decimal.ofSigned? word.toList = none → displayNumber x ≠ word := by
      rintro word hnone rfl
      rw [hd] at hnone
      contradiction
    rw [displayedParts?, if_neg (hne _ (by decide)), if_neg (hne _ (by decide)), hd,
      Option.map_some]
    exact congrArg some (Prod.ext rfl hread)
  · rw [displayNumber_of_eq_infinity heq, heq]
    cases negative x <;> rfl

/-- **Printed numbers are faithful.** Two doubles are printed alike exactly if they are the same bit
for bit or neither is a number. A finite double is printed as a numeral, perhaps with a sign and
perhaps with an exponent, and its bits are that sign and the magnitude nearest to the numeral.

**Proof sketch.** The shortest decimal and the digits of a whole number both read back, and a decimal
denotes itself whichever way it is written. So a printed text tells the sign and the magnitude of
every number, and those are all its bits. -/
theorem Value.display_number_faithful (x y : Float) :
    ((number x).display = (number y).display ↔
      x.toBits = y.toBits ∨ x.isNaN = true ∧ y.isNaN = true) ∧
    (x.isFinite = true → ∃ sign d,
      Decimal.ofSigned? (number x).display.toList = some (sign, d) ∧
      Binary64.IsNearest d.value d.toMagnitude ∧
      x.toBits.toNat = (if sign then 2 ^ 63 else 0) + d.toMagnitude) := by
  have hnan : ∀ {z : Float}, z.isNaN = true → displayNumber z = "NaN" := fun h =>
    displayNumber_of_infinity_lt (Binary64.isNaN_iff.1 h)
  have hparts : ∀ {z : Float}, z.isNaN = false →
      displayedParts? (displayNumber z) = some (negative z, magnitude z) := by
    intro z hz
    apply displayedParts?_displayNumber
    rwa [← Nat.not_lt, ← Binary64.isNaN_iff, Bool.not_eq_true]
  have hword : displayedParts? "NaN" = none := by decide
  refine ⟨⟨fun h => ?_, ?_⟩, fun hf => ?_⟩
  · have hsame : displayedParts? (displayNumber x) = displayedParts? (displayNumber y) :=
      congrArg _ h
    cases hx : x.isNaN <;> cases hy : y.isNaN
    · left
      rw [hparts hx, hparts hy, Option.some.injEq, Prod.mk.injEq] at hsame
      exact Binary64.toBits_eq_iff.2 hsame
    · rw [hparts hx, hnan hy, hword] at hsame
      contradiction
    · rw [hnan hx, hword, hparts hy] at hsame
      contradiction
    · exact .inr ⟨rfl, rfl⟩
  · rintro (h | ⟨hx, hy⟩)
    · have hsame : x = y := by rw [← Float.ofBits_toBits x, h, Float.ofBits_toBits]
      rw [hsame]
    · show displayNumber x = displayNumber y
      rw [hnan hx, hnan hy]
  · have hlt := Binary64.magnitude_lt hf
    obtain ⟨d, hd, hread⟩ := ofSigned?_displayNumber hlt
    refine ⟨_, d, hd, ?_, ?_⟩
    · exact Decimal.isNearest_toMagnitude (by rwa [hread])
    · rw [hread]
      exact Binary64.toNat_toBits x

/-- The least double below zero is printed as `-5e-324`, its neighbour as `-0`. -/
theorem Value.display_number_faithful_leastNegative :
    let x := Float.ofBits 0x8000000000000001
    let zero := Float.ofBits 0x8000000000000000
    x.isFinite = true ∧ (number x).display = "-5e-324" ∧ (number zero).display = "-0" ∧
      ¬ (x.toBits = zero.toBits ∨ x.isNaN = true ∧ zero.isNaN = true) ∧
      ∃ sign d, Decimal.ofSigned? "-5e-324".toList = some (sign, d) ∧
        Binary64.IsNearest d.value d.toMagnitude ∧
        x.toBits.toNat = (if sign then 2 ^ 63 else 0) + d.toMagnitude := by
  intro x zero
  have hfinite : x.isFinite = true := by decide +kernel
  have hx : (number x).display = "-5e-324" := by decide +kernel
  have hzero : (number zero).display = "-0" := by decide +kernel
  have hapart : (number x).display ≠ (number zero).display := by
    rw [hx, hzero]
    decide
  obtain ⟨hsame, hread⟩ := Value.display_number_faithful x zero
  exact ⟨hfinite, hx, hzero, fun h => hapart (hsame.2 h), hx ▸ hread hfinite⟩

end Displayed

end LoxLang
