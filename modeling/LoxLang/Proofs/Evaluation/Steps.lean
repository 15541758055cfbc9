import Mathlib.Tactic.Common
import LoxLang.Evaluation

set_option autoImplicit false

/-!
# The steps of a run

What each step of a run comes to on a machine, as an equation.

## Main definitions

* `Run.left` — the machine that a run leaves behind.

## Main results

* `Run.bind_apply`, `Run.bind_eq_ok`, `Run.left_bind` — one run after another.
* `Run.lookUp_apply`, `Run.assign_apply`, `Run.declare_apply`, `Run.openScope_apply` — the steps that
  read or change the store.
* `Run.call_closure` — a call of a function value.
* `Value.unary_ne_closure`, `Value.binary_ne_closure` — operators make no function values.
* `Machine.interpret_fst` — what the run of a program leaves behind.
-/

namespace LoxLang

namespace Value

/-- The value of an operator in front of another is no function value. -/
lemma unary_ne_closure {operand v : Value} {operator : Token.Kind}
    (h : operand.unary operator = .ok v) (c : Closure) : v ≠ .closure c := by
  rintro rfl
  unfold unary at h
  split at h <;> simp at h

/-- The value of an operator between two others is no function value. -/
lemma binary_ne_closure {left right v : Value} {operator : Token}
    (h : binary operator left right = .ok v) (c : Closure) : v ≠ .closure c := by
  rintro rfl
  unfold binary at h
  split at h
  · simp at h
  · simp at h
  · unfold sum at h
    split at h <;> simp at h
  · split at h
    · unfold arithmetic at h
      split at h <;> simp at h
    · simp at h

end Value

namespace Run

/-- The machine that a run leaves behind, however it ends. -/
def left {α : Type} (x : Run α) (m : Machine) : Machine :=
  match x m with
  | .ok _ n | .error _ n => n

variable {α β : Type} (m : Machine)

/-- One run after another: the second does not take place if the first is halted. -/
lemma bind_apply (x : Run α) (k : α → Run β) : (x >>= k) m =
    match x m with
    | .ok a n => k a n
    | .error h n => .error h n := by
  show EStateM.bind x k m = _
  unfold EStateM.bind
  cases x m <;> rfl

variable {m} in
/-- Runs one after another end well if both do, the second one where the first one ended. -/
lemma bind_eq_ok {x : Run α} {k : α → Run β} {b : β} {n : Machine} :
    (x >>= k) m = .ok b n ↔ ∃ a j, x m = .ok a j ∧ k a j = .ok b n := by
  rw [bind_apply]
  cases x m <;> simp

/-- Of runs one after the other the second one goes on where the first one ends well. -/
lemma left_bind (x : Run α) (f : α → Run β) : (x >>= f).left m =
    match x m with
    | .ok a n => (f a).left n
    | .error _ n => n := by
  simp only [left, bind_apply]
  cases x m <;> rfl

variable {m}

lemma left_of_ok {x : Run α} {n : Machine} {a : α} (h : x m = .ok a n) : x.left m = n := by
  simp [left, h]

lemma left_of_error {x : Run α} {n : Machine} {halt : Halt} (h : x m = .error halt n) :
    x.left m = n := by
  simp [left, h]

variable (m)

lemma lookUp_apply (name : Token) (scope : ScopeId) : lookUp name scope m =
    match m.store.get? scope name.lexeme with
    | some value => .ok value m
    | none => .error (.fault ⟨.undefinedVariable name.lexeme, name⟩) m := by
  show (match m.store.get? scope name.lexeme with
    | some value => pure value
    | none => fault name (.undefinedVariable name.lexeme) : Run Value) m = _
  cases m.store.get? scope name.lexeme <;> rfl

lemma assign_apply (name : Token) (scope : ScopeId) (value : Value) : assign name scope value m =
    match m.store.resolve? name.lexeme scope with
    | none => .error (.fault ⟨.undefinedVariable name.lexeme, name⟩) m
    | some place => .ok () { m with store := m.store.define place name.lexeme value } := by
  have hget : (get : Run Machine) m = .ok m m := rfl
  rw [assign, bind_apply, hget]
  dsimp only [Store.assign?]
  cases m.store.resolve? name.lexeme scope <;> rfl

@[simp] lemma declare_apply (name : Token) (scope : ScopeId) (value : Value) :
    declare name scope value m =
      .ok () { m with store := m.store.define scope name.lexeme value } := rfl

@[simp] lemma openScope_apply (parent : ScopeId) :
    openScope parent m = .ok m.store.next { m with store := m.store.child parent } := rfl

@[simp] lemma print_apply (text : String) :
    print text m = .ok () { m with output := m.output.push text } := rfl

@[simp] lemma close_apply (name : Token) (parameters : List Token) (body : Slots)
    (scope : ScopeId) : close name parameters body scope m =
      .ok (.closure ⟨m.nextIdentity, name, parameters, body, scope⟩)
        { m with nextIdentity := m.nextIdentity + 1 } := rfl

@[simp] lemma callNative_clock_apply :
    callNative .clock m = .ok (.number (m.clock 0)) { m with clock := m.clock.later } := rfl

/-- A call of a function value: its body runs in a new scope in which its parameters are bound. -/
lemma call_closure (execute : ScopeId → Stmt → Run Completion) (f : Closure) (paren : Token)
    (arguments : List Value) : call execute (.closure f) paren arguments =
      if arguments.length = f.arity then do
        let scope ← openScope f.scope
        declareAll scope f.parameters arguments
        let completion ← sequence (execute scope) f.body
        return completion.value
      else fault paren (.wrongArity f.arity arguments.length) := by
  unfold call
  by_cases h : arguments.length = f.arity
  · simp [h]
  · simp only [h, ne_eq, not_false_eq_true, if_true, if_false]
    rfl

/-- A call of a native function. -/
lemma call_native (execute : ScopeId → Stmt → Run Completion) (f : Native) (paren : Token)
    (arguments : List Value) : call execute (.native f) paren arguments =
      if arguments.length = f.arity then callNative f
      else fault paren (.wrongArity f.arity arguments.length) := by
  unfold call
  by_cases h : arguments.length = f.arity
  · simp [h]
  · simp only [h, ne_eq, not_false_eq_true, if_true, if_false]
    rfl

/-! ## Statements in a row -/

section Sequences

variable {execute : Stmt → Run Completion} {s : Stmt}

/-- Nothing is executed after a statement that never completes normally. -/
lemma sequence_of_ne_normal (h : ∀ m n, execute s m ≠ .ok .normal n) (rest : Slots) :
    sequence execute (some s :: rest) = execute s := by
  funext m
  rw [sequence, bind_apply]
  cases hr : execute s m with
  | error => rfl
  | ok completion n =>
    cases completion with
    | normal => exact absurd hr (h m n)
    | returned => rfl

/-- A statement by itself is executed as a statement in a row. -/
lemma sequence_singleton (execute : Stmt → Run Completion) (s : Stmt) :
    sequence execute [some s] = execute s := by
  funext m
  rw [sequence, bind_apply]
  cases execute s m with
  | error => rfl
  | ok completion n => cases completion <;> rfl

end Sequences

end Run

/-- What holds of an empty store and goes on to hold as native functions are bound holds of the store
of a machine that has run nothing yet. -/
lemma Machine.store_initial_induction {P : Store → Prop} (hempty : P Store.initial)
    (hbind : ∀ s (f : Native), P s → P (s.define Store.root f.name (.native f))) (clock : Clock) :
    P (Machine.initial clock).store := by
  have hfold : ∀ (natives : List Native) (s : Store), P s →
      P (natives.foldl (fun s f => s.define Store.root f.name (.native f)) s) := by
    intro natives
    induction natives with
    | nil => exact fun s hs => hs
    | cons f rest ih => exact fun s hs => ih _ (hbind s f hs)
  exact hfold Native.all Store.initial hempty

/-- The run of a program leaves behind what its statements leave behind, however it ends. -/
lemma Machine.interpret_fst (limits : Limits) (program : Slots) (m : Machine) :
    (m.interpret limits program).1 =
      (Run.sequence (execute limits.rounds limits.depth Store.root) program).left m := by
  unfold interpret Run.left
  cases Run.sequence (execute limits.rounds limits.depth Store.root) program m with
  | ok completion n => cases completion <;> rfl
  | error halt n => cases halt <;> rfl

/-- A return never completes normally. -/
lemma execute_return_ne_normal (rounds depth : Nat) (scope : ScopeId) (keyword : Token)
    (value : Option Expr) (m n : Machine) :
    execute rounds depth scope (.return keyword value) m ≠ .ok .normal n := by
  intro h
  cases depth with
  | zero => cases h
  | succ depth =>
    cases value with
    | none => cases h
    | some e =>
      obtain ⟨v, k, -, hrun⟩ := Run.bind_eq_ok.1 h
      cases hrun

end LoxLang
