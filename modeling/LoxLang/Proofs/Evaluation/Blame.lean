import LoxLang.Proofs.Evaluation.Trace
import LoxLang.Proofs.Store.Shape
import LoxLang.Proofs.Syntax.Whole

set_option autoImplicit false

/-!
# Expressions to blame

A fault ends a run because one expression could not go on once its parts had their values. If the
expression is whole, the fault is one of a few, at a token of the kind that the expression keeps for
it.

## Main definitions

* `Expr.Fails`, `Moment.Blames` — an expression, at a moment, is to blame for a fault.
* `RuntimeFault.Ordinary` — the faults that whole expressions are to blame for.
* `Machine.Whole`, `Moment.Whole` — all trees at hand are whole.

## Main results

* `Expr.Fails.ordinary` — whole expressions fail with ordinary faults.
-/

namespace LoxLang

/-! ## Expressions that fail -/

/-- Why a value cannot be called with so many arguments, unless it can. -/
def Value.refusal? : Value → Nat → Option RuntimeFault.Cause
  | .closure f, given => if given = f.arity then none else some (.wrongArity f.arity given)
  | .native f, given => if given = f.arity then none else some (.wrongArity f.arity given)
  | other, _ => some (.notCallable other.display)

/-- An expression fails on a machine: its parts have their values, and with these it cannot go on by
itself. -/
inductive Expr.Fails (rounds depth : Nat) (scope : ScopeId) (m : Machine) :
    Expr → RuntimeFault → Prop
  | variable {name : Token} (h : m.store.get? scope name.lexeme = none) :
    Fails rounds depth scope m (.variable name) ⟨.undefinedVariable name.lexeme, name⟩
  | assign {name : Token} {value : Expr} {v : Value} {n : Machine}
    (hv : evaluate rounds depth scope value m = .ok v n)
    (h : n.store.resolve? name.lexeme scope = none) :
    Fails rounds depth scope m (.assign name value) ⟨.undefinedVariable name.lexeme, name⟩
  | unary {operator : Token} {operand : Expr} {v : Value} {n : Machine}
    {cause : RuntimeFault.Cause} (hv : evaluate rounds depth scope operand m = .ok v n)
    (h : v.unary operator.kind = .error cause) :
    Fails rounds depth scope m (.unary operator operand) ⟨cause, operator⟩
  | binary {left right : Expr} {operator : Token} {v w : Value} {n k : Machine}
    {cause : RuntimeFault.Cause} (hl : evaluate rounds depth scope left m = .ok v n)
    (hr : evaluate rounds depth scope right n = .ok w k)
    (h : Value.binary operator v w = .error cause) :
    Fails rounds depth scope m (.binary left operator right) ⟨cause, operator⟩
  | call {callee : Expr} {paren : Token} {arguments : List Expr} {f : Value} {vs : List Value}
    {n k : Machine} {cause : RuntimeFault.Cause}
    (hf : evaluate rounds depth scope callee m = .ok f n)
    (hvs : Run.all (evaluate rounds depth scope) arguments n = .ok vs k)
    (h : f.refusal? vs.length = some cause) :
    Fails rounds depth scope m (.call callee paren arguments) ⟨cause, paren⟩

/-- The expression that begins at a moment is to blame for a fault. -/
def Moment.Blames (rounds : Nat) (a : Moment) (f : RuntimeFault) : Prop :=
  ∃ depth scope e, a.phase = .evaluating scope e ∧ e.Fails rounds depth scope a.machine f

/-- The faults that programs without faults in their text can end with: a name that is not defined,
an operand or two that the operator is not meant for, and a call of no function or with a wrong
number of arguments. Each arises at a token among some, and of a kind that belongs to it. -/
inductive RuntimeFault.Ordinary (tokens : List Token) : RuntimeFault → Prop
  | undefinedVariable {name : Token} (h : name.Among tokens [.identifier]) :
    Ordinary tokens ⟨.undefinedVariable name.lexeme, name⟩
  | operandNotNumber {operator : Token} (h : operator.Among tokens [.minus]) :
    Ordinary tokens ⟨.operandNotNumber, operator⟩
  | operandsNotNumbers {operator : Token} (h : operator.Among tokens Token.Kind.arithmetic) :
    Ordinary tokens ⟨.operandsNotNumbers, operator⟩
  | operandsNotAddable {operator : Token} (h : operator.Among tokens [.plus]) :
    Ordinary tokens ⟨.operandsNotAddable, operator⟩
  | notCallable (shown : String) {paren : Token} (h : paren.Among tokens [.rightParen]) :
    Ordinary tokens ⟨.notCallable shown, paren⟩
  | wrongArity (expected given : Nat) {paren : Token} (h : paren.Among tokens [.rightParen]) :
    Ordinary tokens ⟨.wrongArity expected given, paren⟩

namespace Value

variable {v w : Value} {cause : RuntimeFault.Cause}

/-- Only the negation of numbers asks for a number. -/
lemma unary_eq_error {kind : Token.Kind} (h : v.unary kind = .error cause) :
    kind ≠ .bang ∧ cause = .operandNotNumber := by
  unfold unary at h
  split at h
  · simp at h
  · simp at h
  · rename_i hbang _
    refine ⟨?_, by simpa using h.symm⟩
    rintro rfl
    exact hbang rfl

/-- Each operator that works on two numbers alone is known. -/
lemma arithmetic_ne_error {operator : Token} {x y : Float}
    (hk : operator.kind ∈ Token.Kind.arithmetic) : arithmetic operator x y ≠ .error cause := by
  simp only [Token.Kind.arithmetic, List.mem_cons, List.not_mem_nil, or_false] at hk
  unfold arithmetic
  rcases hk with hk | hk | hk | hk | hk | hk | hk <;> simp [hk]

/-- What an operator between two values asks for. -/
lemma binary_eq_error {operator : Token} (hk : operator.kind ∈ Token.Kind.binary)
    (h : binary operator v w = .error cause) :
    operator.kind = .plus ∧ cause = .operandsNotAddable ∨
      operator.kind ∈ Token.Kind.arithmetic ∧ cause = .operandsNotNumbers := by
  unfold binary at h
  split at h
  · simp at h
  · simp at h
  · rename_i hplus
    unfold sum at h
    split at h
    · simp at h
    · simp at h
    · exact .inl ⟨hplus, by simpa using h.symm⟩
  · rename_i hequal hdiffer hplus
    have harith : operator.kind ∈ Token.Kind.arithmetic := by
      simp only [Token.Kind.binary, List.mem_cons] at hk
      exact ((hk.resolve_left hequal).resolve_left hdiffer).resolve_left hplus
    split at h
    · exact absurd h (arithmetic_ne_error harith)
    · exact .inr ⟨harith, by simpa using h.symm⟩

/-- What is called is no function, or the number of arguments is wrong. -/
lemma refusal?_eq_some {given : Nat} (h : v.refusal? given = some cause) :
    (∃ shown, cause = .notCallable shown) ∨ ∃ expected given, cause = .wrongArity expected given := by
  cases v with
  | closure f | native f =>
    simp only [refusal?, Option.ite_none_left_eq_some, Option.some.injEq] at h
    exact .inr ⟨_, _, h.2.symm⟩
  | nil | bool | number | string => exact .inl ⟨_, (Option.some.inj h).symm⟩

end Value

/-- **Whole expressions fail with ordinary faults.** -/
theorem Expr.Fails.ordinary {rounds depth : Nat} {scope : ScopeId} {m : Machine} {e : Expr}
    {f : RuntimeFault} {tokens : List Token} (h : e.Fails rounds depth scope m f)
    (he : e.Whole tokens) : f.Ordinary tokens := by
  cases h with
  | «variable» => exact .undefinedVariable he
  | assign => exact .undefinedVariable he.1
  | @unary operator operand v n cause hv h =>
    obtain ⟨hbang, rfl⟩ := Value.unary_eq_error h
    have hkind : operator.kind = .minus := by simpa [hbang] using he.1.2
    exact .operandNotNumber ⟨he.1.1, by simp [hkind]⟩
  | @binary left right operator v w n k cause hl hr h =>
    obtain ⟨hmem, hkind⟩ := he.2.1
    rcases Value.binary_eq_error hkind h with ⟨hplus, rfl⟩ | ⟨harith, rfl⟩
    · exact .operandsNotAddable ⟨hmem, by simp [hplus]⟩
    · exact .operandsNotNumbers ⟨hmem, harith⟩
  | call hf hvs h =>
    rcases Value.refusal?_eq_some h with ⟨shown, rfl⟩ | ⟨expected, given, rfl⟩
    · exact .notCallable shown he.2.1
    · exact .wrongArity expected given he.2.1

/-! ## Machines and moments with whole trees -/

section Whole

variable {tokens : List Token} {m : Machine} {v : Value}

/-- The body of a function value is whole. -/
def Value.Whole (tokens : List Token) (v : Value) : Prop :=
  ∀ f, v = .closure f → Stmt.AllWhole tokens true f.body

/-- What a completion holds is whole. -/
def Completion.Whole (tokens : List Token) (completion : Completion) : Prop :=
  ∀ v ∈ completion.held, v.Whole tokens

/-- The bodies of all function values that are bound are whole. -/
def Machine.Whole (tokens : List Token) (m : Machine) : Prop :=
  ∀ (scope : ScopeId) a, m.store.scopes[scope]? = some a → ∀ b ∈ a.bindings, b.2.Whole tokens

/-- What begins is whole. -/
def Phase.Whole (tokens : List Token) : Phase → Prop
  | evaluating _ e => e.Whole tokens
  | executing _ statement => statement.Whole tokens true
  | evaluated | executed | opened _ | idle => True

/-- All trees at a moment are whole: what begins then, and the bodies of the function values that
are bound or held. -/
structure Moment.Whole (tokens : List Token) (a : Moment) : Prop where
  phase : a.phase.Whole tokens
  machine : a.machine.Whole tokens
  held : ∀ v ∈ a.held, v.Whole tokens

/-- A value that is no function value has no body. -/
lemma Value.whole_of_plain (h : ∀ c, v ≠ .closure c) : v.Whole tokens :=
  fun c hc => absurd hc (h c)

namespace Completion

lemma whole_normal : Whole tokens .normal := by
  simp [Whole, held]

lemma whole_returned (h : v.Whole tokens) (keyword : Token) :
    Whole tokens (.returned v keyword) := by
  simpa [Whole, held] using h

/-- The value of a call is whole if what its body completes with is. -/
lemma Whole.value {completion : Completion} (h : completion.Whole tokens) :
    completion.value.Whole tokens := by
  cases completion with
  | normal => exact Value.whole_of_plain (by simp [Completion.value])
  | returned v keyword => exact h v (by simp [held])

end Completion

namespace Machine.Whole

/-- What is whole over some tokens is so over more. -/
lemma mono {more : List Token} (hm : m.Whole tokens) (hmore : tokens ⊆ more) : m.Whole more :=
  fun scope a ha b hb f hf => (hm scope a ha b hb f hf).mono hmore id

/-- Values that are looked up have whole bodies. -/
lemma get? {scope : ScopeId} {name : String} (hm : m.Whole tokens)
    (h : m.store.get? scope name = some v) : v.Whole tokens := by
  obtain ⟨place, a, -, ha, hmem⟩ := Store.mem_of_get? h
  exact hm place a ha (name, v) hmem

/-- Binding a value with a whole body. -/
lemma define (hm : m.Whole tokens) (hv : v.Whole tokens) (scope : ScopeId) (name : String) :
    ({ m with store := m.store.define scope name v } : Machine).Whole tokens := by
  intro place a ha b hb
  dsimp only at ha
  rw [Store.getElem?_define] at ha
  split at ha
  · obtain ⟨a', ha', rfl⟩ := Option.map_eq_some_iff.1 ha
    rcases Store.mem_bind hb with hnew | hold
    · exact hnew ▸ hv
    · exact hm place a' ha' b hold
  · exact hm place a ha b hb

/-- Making a scope. -/
lemma child (hm : m.Whole tokens) (parent : ScopeId) :
    ({ m with store := m.store.child parent } : Machine).Whole tokens := by
  intro place a ha b hb
  dsimp only at ha
  rw [Store.getElem?_child] at ha
  split at ha
  · obtain rfl : Scope.mk (some parent) [] = a := by simpa using ha
    simp at hb
  · exact hm place a ha b hb

end Machine.Whole

end Whole

end LoxLang
