import Mathlib
import LoxLang.Value

set_option autoImplicit false

/-!
# Equality of values

Two values are equal if they agree in what equality looks at: of a number all but the sign of zero,
where everything that is no number counts as one thing, and of a function value its identity alone.
So equality is an equivalence, although nothing compares with what is no number, not even itself.

## Main definitions

* `Value.Essence`, `Value.essence` — what equality looks at.

## Main results

* `Value.unsigned_inj` — when two numbers are equal.
* `Value.equals_iff` — values are equal if they agree in what equality looks at.
* `Value.equals_equivalence` — equality of values is an equivalence.
-/

namespace LoxLang.Value

open Float.Model (UnpackedFloat)

/-- A number without the sign of zero. -/
def unsigned : UnpackedFloat → UnpackedFloat
  | .zero _ => .zero .positive
  | u => u

/-- **Two numbers compare as equal, or neither is a number, exactly if they are the same** up to the
sign of zero. -/
lemma unsigned_inj {u w : UnpackedFloat} :
    u.compare w = some .eq ∨ u.isNaN = true ∧ w.isNaN = true ↔ unsigned u = unsigned w := by
  have hsign : ∀ s : UnpackedFloat.Sign, compare s s = .eq := by
    rintro (_ | _) <;> rfl
  rcases u with ⟨_ | _⟩ | _ | s | ⟨_ | _, m, e, hm⟩ <;>
    rcases w with ⟨_ | _⟩ | _ | s' | ⟨_ | _, m', e', hm'⟩ <;>
      simp [UnpackedFloat.compare, UnpackedFloat.isNaN, unsigned, hsign, and_comm]

/-- What equality looks at in a value. -/
inductive Essence
  | nil
  | bool (value : Bool)
  | number (value : UnpackedFloat)
  | string (value : String)
  | closure (identity : Nat)
  | native (function : Native)

/-- What equality looks at in a value: of a function value nothing but its identity. -/
def essence : Value → Essence
  | .nil => .nil
  | .bool b => .bool b
  | .number x => .number (unsigned x.toModel.unpack)
  | .string s => .string s
  | .closure c => .closure c.identity
  | .native f => .native f

/-- **Values are equal if they agree in what equality looks at.** -/
theorem equals_iff {v w : Value} : v.equals w = true ↔ v.essence = w.essence := by
  cases v with
  | number x =>
    cases w with
    | number y =>
      have hcompare : (x == y) = true ↔ x.toModel.unpack.compare y.toModel.unpack = some .eq :=
        show (x.toModel.unpack.compare y.toModel.unpack == some .eq) = true ↔ _ from beq_iff_eq
      have hequals : (number x).equals (number y) = true ↔
          (x == y) = true ∨ x.isNaN = true ∧ y.isNaN = true := by
        simp [equals]
      have hnumbers := unsigned_inj (u := x.toModel.unpack) (w := y.toModel.unpack)
      rw [hequals, hcompare, essence, essence, Essence.number.injEq]
      exact hnumbers
    | _ => simp [equals, essence]
  | _ => cases w <;> simp [equals, essence]

/-- **Equality of values is an equivalence**, with what is no number and the zeros among them. -/
theorem equals_equivalence : Equivalence fun v w : Value => v.equals w = true where
  refl _ := equals_iff.2 rfl
  symm h := equals_iff.2 (equals_iff.1 h).symm
  trans h h' := equals_iff.2 ((equals_iff.1 h).trans (equals_iff.1 h'))

/-- Function values are equal if they have one identity. -/
lemma equals_closure_iff {c c' : Closure} :
    (closure c).equals (closure c') = true ↔ c.identity = c'.identity := by
  rw [equals_iff, essence, essence, Essence.closure.injEq]

/-- A function value is equal to function values only. -/
lemma exists_closure_of_equals {c : Closure} {v : Value} (h : (closure c).equals v = true) :
    ∃ c', v = .closure c' := by
  cases v with
  | closure c' => exact ⟨c', rfl⟩
  | nil | bool | number | string | native => simp [equals] at h

end LoxLang.Value
