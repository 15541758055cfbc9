import LoxLang.Proofs.Evaluation.Steps

set_option autoImplicit false

/-!
# The moments of a run

What a run passes through is listed in the order of time: whenever an expression or a statement
begins or ends, a scope is made or a parameter is bound, the machine is noted together with the
values that are held at that moment, which are the arguments and results that the evaluations at
work still wait to use.

## Main definitions

* `Moment` — a machine, the values that are held, and what goes on.
* `Run.next` — what follows a run, if it is not halted.
* `Expr.trace`, `Stmt.trace` — the moments of an expression and of a statement.
* `Machine.trace` — the moments of a program.
-/

namespace LoxLang

/-- What goes on at a moment. -/
inductive Phase
  /-- An expression begins. -/
  | evaluating (scope : ScopeId) (e : Expr)
  /-- An expression has its value. -/
  | evaluated
  /-- A statement begins. -/
  | executing (scope : ScopeId) (statement : Stmt)
  /-- A statement has completed. -/
  | executed
  /-- A scope has been made, or a name bound in it. -/
  | opened (scope : ScopeId)
  /-- No program runs. -/
  | idle

/-- The scope that is at work. -/
def Phase.scope? : Phase → Option ScopeId
  | evaluating scope _ | executing scope _ | opened scope => some scope
  | evaluated | executed | idle => none

/-- A moment of a run: what goes on, the machine, and the values that are held, the latest first. -/
structure Moment where
  phase : Phase
  machine : Machine
  held : List Value

/-- The value that a completion holds, if it returns one. -/
def Completion.held : Completion → List Value
  | normal => []
  | returned value _ => [value]

namespace Run

/-- What follows a run, if it is not halted. -/
def next {α : Type} (x : Run α) (m : Machine) (follow : α → Machine → List Moment) : List Moment :=
  match x m with
  | .ok value n => follow value n
  | .error _ _ => []

/-- The moments of what begins, goes on and ends with some values held. -/
def framed {α : Type} (x : Run α) (begun ended : Phase) (give : α → List Value)
    (within : List Moment) (m : Machine) (held : List Value) : List Moment :=
  ⟨begun, m, held⟩ :: (within ++ x.next m fun value n => [⟨ended, n, give value ++ held⟩])

/-- The moments of expressions from left to right, whose values are held. -/
def traceAll (evaluate : Expr → Run Value) (trace : Expr → Machine → List Value → List Moment) :
    List Expr → Machine → List Value → List Moment
  | [], _, _ => []
  | e :: rest, m, held =>
    trace e m held ++ (evaluate e).next m fun value n => traceAll evaluate trace rest n (value :: held)

/-- The moments of binding parameters to arguments. -/
def traceDeclareAll (scope : ScopeId) :
    List Token → List Value → Machine → List Value → List Moment
  | name :: names, value :: values, m, held =>
    (declare name scope value).next m fun _ n =>
      ⟨.opened scope, n, held⟩ :: traceDeclareAll scope names values n held
  | _, _, _, _ => []

/-- The moments of statements in slots, up to the first return. -/
def traceSequence (execute : Stmt → Run Completion)
    (trace : Stmt → Machine → List Value → List Moment) :
    Slots → Machine → List Value → List Moment
  | [], _, _ => []
  | none :: rest, m, held => traceSequence execute trace rest m held
  | some statement :: rest, m, held =>
    trace statement m held ++ (execute statement).next m fun completion n =>
      match completion with
      | .normal => traceSequence execute trace rest n held
      | .returned _ _ => []

/-- The moments of a loop. -/
def traceIterate (condition : Run Value) (body : Run Completion)
    (traceCondition traceBody : Machine → List Value → List Moment) :
    Nat → Machine → List Value → List Moment
  | 0, _, _ => []
  | rounds + 1, m, held =>
    traceCondition m held ++ condition.next m fun value n =>
      if value.truthy then
        traceBody n held ++ body.next n fun completion k =>
          match completion with
          | .normal => traceIterate condition body traceCondition traceBody rounds k held
          | .returned _ _ => []
      else []

/-- The moments of a call. -/
def traceCall (execute : ScopeId → Stmt → Run Completion)
    (trace : ScopeId → Stmt → Machine → List Value → List Moment) (callee : Value)
    (arguments : List Value) (m : Machine) (held : List Value) : List Moment :=
  match callee with
  | .closure f =>
    if arguments.length = f.arity then
      (openScope f.scope).next m fun scope n =>
        ⟨.opened scope, n, held⟩ :: (traceDeclareAll scope f.parameters arguments n held ++
          (declareAll scope f.parameters arguments).next n fun _ k =>
            traceSequence (execute scope) (trace scope) f.body k held)
    else []
  | _ => []

end Run

open Run

mutual

/-- The moments of an expression. -/
def Expr.trace (rounds : Nat) :
    (depth : Nat) → ScopeId → Expr → Machine → List Value → List Moment
  | 0, _, _, _, _ => []
  | depth + 1, scope, e, m, held =>
    (evaluate rounds (depth + 1) scope e).framed (.evaluating scope e) .evaluated (fun v => [v])
      (match e with
      | .literal _ | .variable _ => []
      | .grouping inner => Expr.trace rounds depth scope inner m held
      | .assign _ value => Expr.trace rounds depth scope value m held
      | .unary _ operand => Expr.trace rounds depth scope operand m held
      | .binary left _ right =>
        Expr.trace rounds depth scope left m held ++
          (evaluate rounds depth scope left).next m fun v n =>
            Expr.trace rounds depth scope right n (v :: held)
      | .logical left operator right =>
        Expr.trace rounds depth scope left m held ++
          (evaluate rounds depth scope left).next m fun v n =>
            if v.settles operator.kind then [] else Expr.trace rounds depth scope right n (v :: held)
      | .call callee _ arguments =>
        Expr.trace rounds depth scope callee m held ++
          (evaluate rounds depth scope callee).next m fun f n =>
            traceAll (evaluate rounds depth scope) (Expr.trace rounds depth scope) arguments n
                (f :: held) ++
              (all (evaluate rounds depth scope) arguments).next n fun vs k =>
                traceCall (execute rounds depth) (Stmt.trace rounds depth) f vs k
                  (vs ++ f :: held)) m held

/-- The moments of a statement. -/
def Stmt.trace (rounds : Nat) :
    (depth : Nat) → ScopeId → Stmt → Machine → List Value → List Moment
  | 0, _, _, _, _ => []
  | depth + 1, scope, statement, m, held =>
    (execute rounds (depth + 1) scope statement).framed (.executing scope statement) .executed
      Completion.held
      (match statement with
      | .expression value => Expr.trace rounds depth scope value m held
      | .print value => Expr.trace rounds depth scope value m held
      | .var _ none => []
      | .var _ (some initial) => Expr.trace rounds depth scope initial m held
      | .block body =>
        (openScope scope).next m fun inner n =>
          ⟨.opened inner, n, held⟩ ::
            traceSequence (execute rounds depth inner) (Stmt.trace rounds depth inner) body n held
      | .branch condition whenTrue whenFalse =>
        Expr.trace rounds depth scope condition m held ++
          (evaluate rounds depth scope condition).next m fun v n =>
            if v.truthy then Stmt.trace rounds depth scope whenTrue n held
            else
              match whenFalse with
              | some whenFalse => Stmt.trace rounds depth scope whenFalse n held
              | none => []
      | .loop condition body =>
        traceIterate (evaluate rounds depth scope condition) (execute rounds depth scope body)
          (Expr.trace rounds depth scope condition) (Stmt.trace rounds depth scope body) rounds m
          held
      | .function name parameters body =>
        (close name parameters body scope).next m fun v n => [⟨.evaluated, n, v :: held⟩]
      | .return _ none => []
      | .return _ (some value) => Expr.trace rounds depth scope value m held) m held

end

/-- The moments of a program. -/
def Machine.trace (limits : Limits) (program : Slots) (m : Machine) : List Moment :=
  traceSequence (execute limits.rounds limits.depth Store.root)
    (Stmt.trace limits.rounds limits.depth Store.root) program m []

end LoxLang
