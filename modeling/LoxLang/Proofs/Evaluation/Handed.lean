import LoxLang.Proofs.Evaluation.Provenance

set_option autoImplicit false

/-!
# Every run hands function values on

The steps of a run bring no function value to hand that was not bound or held before, and evaluation
is put together from them, one expression and one statement after another. The declaration of a
function is the one exception.

## Main definitions

* `HandsEvaluated`, `HandsExecuted` — expressions and statements hand function values on at a depth.

## Main results

* `Run.Hands.call` — a call hands its arguments to the parameters and gives what its body returns.
* `hands_evaluated_executed` — evaluation and execution hand function values on.
* `HandedOn.of_program` — so does the run of a program, however it ends.
-/

namespace LoxLang

open Run

namespace Run.Hands

variable {α β : Type} {give : α → List Value} {held : List Value} {x : Run α} {m n : Machine}
  {moments : List Moment} {scope : ScopeId}

/-! ## The steps -/

/-- A step that gives a value and brings no function value to hand. -/
lemma of_ok {a : α} (hr : x m = .ok a n)
    (h : n.functions (give a ++ held) ⊆ m.functions held) : Hands give held x m [] :=
  .ended hr (.stop h)

/-- A step that halts the run. -/
lemma of_error {halt : Halt} (hr : x m = .error halt m) : Hands give held x m [] :=
  .halted hr (.stop (Machine.functions_mono (List.nil_subset _)))

/-- A value that is held already. -/
lemma pure {a : α} (h : give a ⊆ held) : Hands give held (Pure.pure a) m [] :=
  of_ok rfl (Machine.functions_mono (List.append_subset.2 ⟨h, List.Subset.refl _⟩))

lemma throw (halt : Halt) : Hands give held (throw halt) m [] := of_error rfl

lemma fault (token : Token) (cause : RuntimeFault.Cause) :
    Hands give held (Run.fault token cause) m [] := throw _

/-- A value that is no function value may come from nowhere, if no scope changes. -/
lemma of_plain {x : Run Value} {v : Value} (hr : x m = .ok v n) (hstore : n.store = m.store)
    (hv : ∀ c, v ≠ .closure c) : Hands one held x m [] := by
  refine of_ok hr ?_
  rintro c (hc | hc)
  · rw [Machine.Binds, hstore] at hc
    exact .inl hc
  · rcases List.mem_cons.1 hc with hc | hc
    · exact absurd hc.symm (hv c)
    · exact .inr hc

lemma ofExcept (token : Token) {result : Except RuntimeFault.Cause Value}
    (h : ∀ v, result = .ok v → ∀ c, v ≠ .closure c) :
    Hands one held (Run.ofExcept token result) m [] := by
  cases result with
  | ok v => exact of_plain rfl rfl (h v rfl)
  | error cause => exact fault token cause

lemma callNative (f : Native) : Hands one held (Run.callNative f) m [] := by
  cases f with
  | clock => exact of_plain (callNative_clock_apply m) rfl (by simp)

lemma lookUp (name : Token) : Hands one held (Run.lookUp name scope) m [] := by
  have hrun := lookUp_apply m name scope
  cases hv : m.store.get? scope name.lexeme with
  | none => exact of_error (by rw [hrun, hv])
  | some v =>
    refine of_ok (by rw [hrun, hv]) ?_
    rintro c (hc | hc)
    · exact .inl hc
    · rcases List.mem_cons.1 hc with hc | hc
      · exact Machine.mem_functions_of_get? hv hc.symm
      · exact .inr hc

lemma assign {v : Value} (hv : v ∈ held) (name : Token) :
    Hands nothing held (Run.assign name scope v) m [] := by
  have hrun := assign_apply m name scope v
  cases hp : m.store.resolve? name.lexeme scope with
  | none => exact of_error (by rw [hrun, hp])
  | some place =>
    exact of_ok (by rw [hrun, hp]) (Machine.functions_define (fun _ _ => hv) place name.lexeme)

lemma declare {v : Value} (hv : ∀ c, v = .closure c → v ∈ held) (name : Token) :
    Hands nothing held (Run.declare name scope v) m [] :=
  of_ok (declare_apply m name scope v) (Machine.functions_define hv scope name.lexeme)

lemma openScope (parent : ScopeId) : Hands nothing held (Run.openScope parent) m [] :=
  of_ok (openScope_apply m parent) (Machine.functions_child m held parent)

lemma print (text : String) : Hands nothing held (Run.print text) m [] :=
  of_ok (print_apply m text) subset_rfl

/-! ## The loops -/

/-- Parameters are bound one by one. -/
lemma declareAll {names : List Token} {values : List Value} (hvs : values ⊆ held) :
    Hands nothing held (Run.declareAll scope names values) m
      (traceDeclareAll scope names values m held) := by
  induction names generalizing m values with
  | nil => exact pure (List.nil_subset _)
  | cons name names ih =>
    cases values with
    | nil => exact pure (List.nil_subset _)
    | cons v values =>
      obtain ⟨hv, hvs⟩ := List.cons_subset.1 hvs
      refine (declare (fun _ _ => hv) name).step_bind fun _ n _ => ?_
      exact (ih hvs).cons (by simp [Moment.Declares])

/-- Expressions are evaluated from left to right, and their values are held. -/
lemma allOnto {evaluate : Expr → Run Value} {trace : Expr → Machine → List Value → List Moment}
    (he : ∀ e m held, Hands one held (evaluate e) m (trace e m held)) {es : List Expr}
    {values : List Value} (hvs : values ⊆ held) :
    Hands id held (Run.allOnto evaluate values es) m (traceAll evaluate trace es m held) := by
  induction es generalizing m held values with
  | nil => exact pure fun v hv => hvs (List.mem_reverse.1 hv)
  | cons e rest ih =>
    refine (he e m held).bind_held fun v n _ => ?_
    have hall : v :: values ⊆ v :: held := List.cons_subset_cons v hvs
    exact ih hall

/-- Statements are executed in order. -/
lemma sequence {execute : Stmt → Run Completion}
    {trace : Stmt → Machine → List Value → List Moment}
    (hs : ∀ st m held, Hands Completion.held held (execute st) m (trace st m held))
    {slots : Slots} :
    Hands Completion.held held (Run.sequence execute slots) m
      (traceSequence execute trace slots m held) := by
  induction slots generalizing m with
  | nil => exact pure (List.nil_subset _)
  | cons slot rest ih =>
    cases slot with
    | none => exact ih
    | some st =>
      refine (hs st m held).bind_held fun completion n _ => ?_
      cases completion with
      | normal => exact ih
      | returned v keyword => exact pure (List.subset_append_left _ _)

/-- A loop goes round and round. -/
lemma iterate {condition : Run Value} {body : Run Completion}
    {traceCondition traceBody : Machine → List Value → List Moment}
    (hcondition : ∀ m, Hands one held condition m (traceCondition m held))
    (hbody : ∀ m, Hands Completion.held held body m (traceBody m held)) {rounds : Nat} :
    Hands Completion.held held (Run.iterate condition body rounds) m
      (traceIterate condition body traceCondition traceBody rounds m held) := by
  induction rounds generalizing m with
  | zero => exact throw _
  | succ rounds ih =>
    refine (hcondition m).bind_dropped fun v n _ => ?_
    split
    · refine (hbody n).bind_held fun completion k _ => ?_
      cases completion with
      | normal => exact ih
      | returned v keyword => exact pure (List.subset_append_left _ _)
    · exact pure (List.nil_subset _)

/-- What a function body gives is what it returned. -/
lemma value_subset (completion : Completion) (c : Closure)
    (h : Value.closure c ∈ one completion.value) : Value.closure c ∈ completion.held := by
  cases completion with
  | normal => simp [one, Completion.value] at h
  | returned v keyword => exact h

/-- A call hands its arguments to the parameters and gives what its body returns. -/
lemma call {execute : ScopeId → Stmt → Run Completion}
    {trace : ScopeId → Stmt → Machine → List Value → List Moment}
    (hs : ∀ scope st m held,
      Hands Completion.held held (execute scope st) m (trace scope st m held))
    {callee : Value} {arguments : List Value} (paren : Token) (hvs : arguments ⊆ held) :
    Hands one held (Run.call execute callee paren arguments) m
      (traceCall execute trace callee arguments m held) := by
  cases callee with
  | closure f =>
    rw [call_closure]
    unfold traceCall
    dsimp only
    split
    · refine (openScope f.scope).step_bind fun inner n _ => cons ?_ (by simp [Moment.Declares])
      refine (declareAll hvs).bind_held fun _ k _ => ?_
      exact (sequence (hs inner)).map value_subset
    · exact fault paren _
  | native f =>
    rw [call_native]
    split
    · exact callNative f
    · exact fault paren _
  | nil | bool | number | string => exact fault paren _

end Run.Hands

/-! ## Evaluation -/

/-- A declaration of a function passes through its three moments. -/
lemma Stmt.trace_function (rounds depth : Nat) (scope : ScopeId) (name : Token)
    (parameters : List Token) (body : Slots) (m : Machine) (held : List Value) :
    Stmt.trace rounds (depth + 1) scope (.function name parameters body) m held =
      Moment.declaration m scope name parameters body held := rfl

/-- Expressions hand function values on at a depth. -/
def HandsEvaluated (rounds depth : Nat) : Prop :=
  ∀ scope e m held,
    Hands one held (evaluate rounds depth scope e) m (Expr.trace rounds depth scope e m held)

/-- Statements hand function values on at a depth. -/
def HandsExecuted (rounds depth : Nat) : Prop :=
  ∀ scope st m held,
    Hands Completion.held held (execute rounds depth scope st) m
      (Stmt.trace rounds depth scope st m held)

variable {rounds depth : Nat}

/-- An expression hands function values on if all that is nested in it does. -/
lemma handsEvaluated_succ (he : HandsEvaluated rounds depth) (hs : HandsExecuted rounds depth) :
    HandsEvaluated rounds (depth + 1) := by
  intro scope e m held
  refine Hands.framed ?_ (by simp [Moment.Declares]) (by simp [Moment.Declares])
  cases e with
  | literal value => exact .of_plain rfl rfl (by cases value <;> simp [Value.ofLiteral])
  | grouping inner => exact he scope inner m held
  | «variable» name => exact .lookUp name
  | assign name value =>
    refine (he scope value m held).bind_quiet fun v n _ => ?_
    exact Hands.bind_quiet (.assign (List.mem_cons_self ..) name) fun _ k _ => .pure (by simp [one])
  | unary operator operand =>
    refine (he scope operand m held).bind_quiet fun v n _ => ?_
    exact .ofExcept operator fun w hw => Value.unary_ne_closure hw
  | binary left operator right =>
    refine (he scope left m held).bind_held fun v n _ => ?_
    refine (he scope right n _).bind_quiet fun w k _ => ?_
    exact .ofExcept operator fun u hu => Value.binary_ne_closure hu
  | logical left operator right =>
    refine (he scope left m held).bind_held fun v n _ => ?_
    split
    · exact .pure (List.subset_append_left _ _)
    · exact he scope right n _
  | call callee paren arguments =>
    refine (he scope callee m held).bind_held fun f n _ => ?_
    refine (Hands.allOnto (he scope) (List.nil_subset _)).bind_held fun vs k _ => ?_
    exact .call hs paren (List.subset_append_left _ _)

/-- A statement hands function values on if all that is nested in it does. -/
lemma handsExecuted_succ (he : HandsEvaluated rounds depth) (hs : HandsExecuted rounds depth) :
    HandsExecuted rounds (depth + 1) := by
  intro scope st m held
  -- The declaration of a function is set apart: it alone makes a function value.
  by_cases hfunction : ∃ name parameters body, st = .function name parameters body
  · obtain ⟨name, parameters, body, rfl⟩ := hfunction
    rw [Stmt.trace_function, ← List.append_nil (Moment.declaration ..)]
    refine .ended rfl (.make subset_rfl (.stop ?_))
    exact m.functions_declared scope name parameters body held
  have hphase : ∀ n held, ¬ Moment.Declares ⟨.executing scope st, n, held⟩ := by
    rintro n held ⟨scope', name, parameters, body, h⟩
    cases h
    exact hfunction ⟨name, parameters, body, rfl⟩
  refine Hands.framed ?_ (hphase m held) (by simp [Moment.Declares])
  cases st with
  | expression value => exact (he scope value m held).map (by simp [Completion.held])
  | print value =>
    refine (he scope value m held).bind_quiet fun v n _ => ?_
    exact (Hands.print v.display).map (by simp [Completion.held])
  | var name initial =>
    cases initial with
    | none => exact (Hands.declare (by simp) name).map (by simp [Completion.held])
    | some initial =>
      refine (he scope initial m held).bind_quiet fun v n _ => ?_
      exact (Hands.declare (by simp [one]) name).map (by simp [Completion.held])
  | block body =>
    refine (Hands.openScope scope).step_bind fun inner n _ => ?_
    exact (Hands.sequence (hs inner)).cons (by simp [Moment.Declares])
  | branch condition whenTrue whenFalse =>
    refine (he scope condition m held).bind_dropped fun v n _ => ?_
    split
    · exact hs scope whenTrue n held
    · cases whenFalse with
      | none => exact .pure (List.nil_subset _)
      | some whenFalse => exact hs scope whenFalse n held
  | loop condition body =>
    exact .iterate (fun n => he scope condition n held) fun n => hs scope body n held
  | function name parameters body => exact absurd ⟨name, parameters, body, rfl⟩ hfunction
  | «return» keyword value =>
    cases value with
    | none => exact .of_ok rfl (Machine.functions_subset (by simp [Completion.held]))
    | some value => exact (he scope value m held).map fun _ _ hc => hc

/-- **Evaluation and execution hand function values on.**

**Proof sketch.** By induction on the depth. Each form of expression and of statement but the
declaration of a function is put together from evaluations that are nested less deeply and from
steps that bring no function value to hand which was not bound or held before. -/
theorem hands_evaluated_executed (rounds depth : Nat) :
    HandsEvaluated rounds depth ∧ HandsExecuted rounds depth := by
  induction depth with
  | zero => exact ⟨fun _ _ _ _ => .throw _, fun _ _ _ _ => .throw _⟩
  | succ depth ih => exact ⟨handsEvaluated_succ ih.1 ih.2, handsExecuted_succ ih.1 ih.2⟩

/-- **The run of a program hands function values on**, however it ends. -/
theorem HandedOn.of_program (limits : Limits) (program : Slots) (m : Machine) :
    HandedOn (m.functions []) (m.trace limits program)
      ((m.interpret limits program).1.functions []) := by
  have hs := (hands_evaluated_executed limits.rounds limits.depth).2 Store.root
  have hrun : Hands Completion.held []
      (Run.sequence (execute limits.rounds limits.depth Store.root) program) m
      (m.trace limits program) := .sequence hs
  rw [Machine.interpret_fst]
  cases hrun with
  | ended hr h =>
    rw [left_of_ok hr]
    exact h.mono subset_rfl (Machine.functions_mono (List.nil_subset _))
  | halted hr h =>
    rw [left_of_error hr]
    exact h

end LoxLang
