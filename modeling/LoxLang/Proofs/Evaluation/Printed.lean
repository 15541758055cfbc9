import LoxLang.Proofs.Evaluation.Returns

set_option autoImplicit false

/-!
# What is printed

The values that print statements print in a run are listed in order. The output of a run has their
texts only, which do not tell a function from a string that looks like one. The list is put together
as that of what calls return is.

## Main definitions

* `Expr.printed`, `Stmt.printed` — the values that are printed in an expression and in a statement.
* `Machine.printed` — the values that are printed in a program.
-/

namespace LoxLang

open Run

mutual

/-- The values that are printed in an expression, within the calls that it makes. -/
def Expr.printed (rounds : Nat) : (depth : Nat) → ScopeId → Expr → Machine → List Value
  | 0, _, _ => fun _ => []
  | depth + 1, scope, e =>
    match e with
    | .literal _ | .variable _ => fun _ => []
    | .grouping inner => Expr.printed rounds depth scope inner
    | .assign _ value => Expr.printed rounds depth scope value
    | .unary _ operand => Expr.printed rounds depth scope operand
    | .binary left _ right =>
      (evaluate rounds depth scope left).listing (Expr.printed rounds depth scope left) fun _ =>
        Expr.printed rounds depth scope right
    | .logical left operator right =>
      (evaluate rounds depth scope left).listing (Expr.printed rounds depth scope left) fun v =>
        if v.settles operator.kind then fun _ => [] else Expr.printed rounds depth scope right
    | .call callee _ arguments =>
      (evaluate rounds depth scope callee).listing (Expr.printed rounds depth scope callee) fun f =>
        (all (evaluate rounds depth scope) arguments).listing
          (listAll (evaluate rounds depth scope) (Expr.printed rounds depth scope) arguments)
          fun vs => returnsBody (execute rounds depth) (Stmt.printed rounds depth) f vs

/-- The values that are printed in a statement. -/
def Stmt.printed (rounds : Nat) : (depth : Nat) → ScopeId → Stmt → Machine → List Value
  | 0, _, _ => fun _ => []
  | depth + 1, scope, statement =>
    match statement with
    | .expression value => Expr.printed rounds depth scope value
    | .print value =>
      (evaluate rounds depth scope value).listing (Expr.printed rounds depth scope value)
        fun v _ => [v]
    | .var _ none => fun _ => []
    | .var _ (some initial) => Expr.printed rounds depth scope initial
    | .block body =>
      (openScope scope).listing (fun _ => []) fun inner =>
        listSequence (execute rounds depth inner) (Stmt.printed rounds depth inner) body
    | .branch condition whenTrue whenFalse =>
      (evaluate rounds depth scope condition).listing (Expr.printed rounds depth scope condition)
        fun v =>
          if v.truthy then Stmt.printed rounds depth scope whenTrue
          else
            match whenFalse with
            | some whenFalse => Stmt.printed rounds depth scope whenFalse
            | none => fun _ => []
    | .loop condition body =>
      listIterate (evaluate rounds depth scope condition) (execute rounds depth scope body)
        (Expr.printed rounds depth scope condition) (Stmt.printed rounds depth scope body) rounds
    | .function _ _ _ => fun _ => []
    | .return _ none => fun _ => []
    | .return _ (some value) => Expr.printed rounds depth scope value

end

/-- The values that are printed in a program, in order. -/
def Machine.printed (limits : Limits) (program : Slots) (m : Machine) : List Value :=
  listSequence (execute limits.rounds limits.depth Store.root)
    (Stmt.printed limits.rounds limits.depth Store.root) program m

end LoxLang
