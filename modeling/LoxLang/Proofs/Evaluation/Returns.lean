import LoxLang.Proofs.Evaluation.Listing

set_option autoImplicit false

/-!
# What calls return

The values that calls return in a run are listed in the order in which the calls end. A call that is
cut off by the end of the run returns nothing.

## Main definitions

* `Run.returnsCall` — what calls return within a call, and what it returns itself.
* `Expr.returns`, `Stmt.returns` — what calls return in an expression and in a statement.
* `Machine.returns` — what calls return in a program.
-/

namespace LoxLang

namespace Run

/-- What calls return within a call, while its body is executed. -/
def returnsBody (execute : ScopeId → Stmt → Run Completion)
    (returns : ScopeId → Stmt → Machine → List Value) (callee : Value) (arguments : List Value) :
    Machine → List Value :=
  match callee with
  | .closure f =>
    if arguments.length = f.arity then
      (openScope f.scope).listing (fun _ => []) fun scope =>
        (declareAll scope f.parameters arguments).listing (fun _ => []) fun _ =>
          listSequence (execute scope) (returns scope) f.body
    else fun _ => []
  | _ => fun _ => []

/-- What calls return within a call and what it returns itself. -/
def returnsCall (execute : ScopeId → Stmt → Run Completion)
    (returns : ScopeId → Stmt → Machine → List Value) (callee : Value) (paren : Token)
    (arguments : List Value) : Machine → List Value :=
  (call execute callee paren arguments).listing (returnsBody execute returns callee arguments)
    fun value _ => [value]

end Run

open Run

mutual

/-- What calls return in an expression. -/
def Expr.returns (rounds : Nat) : (depth : Nat) → ScopeId → Expr → Machine → List Value
  | 0, _, _ => fun _ => []
  | depth + 1, scope, e =>
    match e with
    | .literal _ | .variable _ => fun _ => []
    | .grouping inner => Expr.returns rounds depth scope inner
    | .assign _ value => Expr.returns rounds depth scope value
    | .unary _ operand => Expr.returns rounds depth scope operand
    | .binary left _ right =>
      (evaluate rounds depth scope left).listing (Expr.returns rounds depth scope left) fun _ =>
        Expr.returns rounds depth scope right
    | .logical left operator right =>
      (evaluate rounds depth scope left).listing (Expr.returns rounds depth scope left) fun v =>
        if v.settles operator.kind then fun _ => [] else Expr.returns rounds depth scope right
    | .call callee paren arguments =>
      (evaluate rounds depth scope callee).listing (Expr.returns rounds depth scope callee) fun f =>
        (all (evaluate rounds depth scope) arguments).listing
          (listAll (evaluate rounds depth scope) (Expr.returns rounds depth scope) arguments)
          fun vs => returnsCall (execute rounds depth) (Stmt.returns rounds depth) f paren vs

/-- What calls return in a statement. -/
def Stmt.returns (rounds : Nat) : (depth : Nat) → ScopeId → Stmt → Machine → List Value
  | 0, _, _ => fun _ => []
  | depth + 1, scope, statement =>
    match statement with
    | .expression value => Expr.returns rounds depth scope value
    | .print value => Expr.returns rounds depth scope value
    | .var _ none => fun _ => []
    | .var _ (some initial) => Expr.returns rounds depth scope initial
    | .block body =>
      (openScope scope).listing (fun _ => []) fun inner =>
        listSequence (execute rounds depth inner) (Stmt.returns rounds depth inner) body
    | .branch condition whenTrue whenFalse =>
      (evaluate rounds depth scope condition).listing (Expr.returns rounds depth scope condition)
        fun v =>
          if v.truthy then Stmt.returns rounds depth scope whenTrue
          else
            match whenFalse with
            | some whenFalse => Stmt.returns rounds depth scope whenFalse
            | none => fun _ => []
    | .loop condition body =>
      listIterate (evaluate rounds depth scope condition) (execute rounds depth scope body)
        (Expr.returns rounds depth scope condition) (Stmt.returns rounds depth scope body) rounds
    | .function _ _ _ => fun _ => []
    | .return _ none => fun _ => []
    | .return _ (some value) => Expr.returns rounds depth scope value

end

/-- What calls return in a program, in the order in which they end. -/
def Machine.returns (limits : Limits) (program : Slots) (m : Machine) : List Value :=
  listSequence (execute limits.rounds limits.depth Store.root)
    (Stmt.returns limits.rounds limits.depth Store.root) program m

end LoxLang
