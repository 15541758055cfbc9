import LoxLang.Proofs.Evaluation.Listing

set_option autoImplicit false

/-!
# Uses of variables

What a run does with names is listed in order: a variable is used, to read it or to assign to it, or a
name is declared. With a use goes the function value whose body is at work, for the same text may be
at work for several function values, in scopes of its own each time.

## Main definitions

* `Use` — a use of a variable, with the scope in which it finds it.
* `Event` — a use or a declaration.
* `Expr.events`, `Stmt.events` — the events in an expression and in a statement.
* `Machine.events` — the events in a program.

## Main results

* `Run.call_closure_enter` — a call makes a scope for its body and goes on there.
-/

namespace LoxLang

/-- A use of a variable, to read it or to assign to it. -/
structure Use where
  /-- The function value whose body is at work, if any is. -/
  owner : Option Closure
  name : Token
  scope : ScopeId
  store : Store

/-- The scope in which a use finds its variable. -/
def Use.found (u : Use) : Option ScopeId := u.store.resolve? u.name.lexeme u.scope

/-- What a run does with a name. -/
inductive Event
  | uses (u : Use)
  /-- A declaration of a variable or a function is executed. -/
  | declares (scope : ScopeId) (name : String)

namespace Run

/-- Makes a scope for a call of a function value, with its parameters bound. -/
def enter (f : Closure) (arguments : List Value) : Run ScopeId := do
  let scope ← openScope f.scope
  declareAll scope f.parameters arguments
  return scope

/-- The events of a call. The function value that is called is the one at work in its body. -/
def eventsCall (execute : ScopeId → Stmt → Run Completion)
    (events : Closure → ScopeId → Stmt → Machine → List Event) (callee : Value)
    (arguments : List Value) : Machine → List Event :=
  match callee with
  | .closure f =>
    if arguments.length = f.arity then
      (enter f arguments).listing (fun _ => []) fun scope =>
        listSequence (execute scope) (events f scope) f.body
    else fun _ => []
  | _ => fun _ => []

/-- **A call makes a scope for its body and goes on there.** -/
lemma call_closure_enter (execute : ScopeId → Stmt → Run Completion) (f : Closure) (paren : Token)
    {arguments : List Value} (h : arguments.length = f.arity) :
    call execute (.closure f) paren arguments = (do
      let scope ← enter f arguments
      let completion ← sequence (execute scope) f.body
      return completion.value) := by
  rw [call_closure, if_pos h]
  simp only [enter, bind_assoc, pure_bind]

end Run

open Run

mutual

/-- The events in an expression. -/
def Expr.events (rounds : Nat) :
    (depth : Nat) → Option Closure → ScopeId → Expr → Machine → List Event
  | 0, _, _, _ => fun _ => []
  | depth + 1, owner, scope, e =>
    match e with
    | .literal _ => fun _ => []
    | .grouping inner => Expr.events rounds depth owner scope inner
    | .variable name => fun m => [.uses ⟨owner, name, scope, m.store⟩]
    | .assign name value =>
      (evaluate rounds depth scope value).listing (Expr.events rounds depth owner scope value)
        fun _ m => [.uses ⟨owner, name, scope, m.store⟩]
    | .unary _ operand => Expr.events rounds depth owner scope operand
    | .binary left _ right =>
      (evaluate rounds depth scope left).listing (Expr.events rounds depth owner scope left) fun _ =>
        Expr.events rounds depth owner scope right
    | .logical left operator right =>
      (evaluate rounds depth scope left).listing (Expr.events rounds depth owner scope left) fun v =>
        if v.settles operator.kind then fun _ => [] else Expr.events rounds depth owner scope right
    | .call callee _ arguments =>
      (evaluate rounds depth scope callee).listing (Expr.events rounds depth owner scope callee)
        fun f =>
          (all (evaluate rounds depth scope) arguments).listing
            (listAll (evaluate rounds depth scope) (Expr.events rounds depth owner scope) arguments)
            fun vs =>
              eventsCall (execute rounds depth) (fun f => Stmt.events rounds depth (some f)) f vs

/-- The events in a statement. -/
def Stmt.events (rounds : Nat) :
    (depth : Nat) → Option Closure → ScopeId → Stmt → Machine → List Event
  | 0, _, _, _ => fun _ => []
  | depth + 1, owner, scope, statement =>
    match statement with
    | .expression value => Expr.events rounds depth owner scope value
    | .print value => Expr.events rounds depth owner scope value
    | .var name none => fun _ => [.declares scope name.lexeme]
    | .var name (some initial) =>
      (evaluate rounds depth scope initial).listing (Expr.events rounds depth owner scope initial)
        fun _ _ => [.declares scope name.lexeme]
    | .block body =>
      (openScope scope).listing (fun _ => []) fun inner =>
        listSequence (execute rounds depth inner) (Stmt.events rounds depth owner inner) body
    | .branch condition whenTrue whenFalse =>
      (evaluate rounds depth scope condition).listing (Expr.events rounds depth owner scope condition)
        fun v =>
          if v.truthy then Stmt.events rounds depth owner scope whenTrue
          else
            match whenFalse with
            | some whenFalse => Stmt.events rounds depth owner scope whenFalse
            | none => fun _ => []
    | .loop condition body =>
      listIterate (evaluate rounds depth scope condition) (execute rounds depth scope body)
        (Expr.events rounds depth owner scope condition) (Stmt.events rounds depth owner scope body)
        rounds
    | .function name _ _ => fun _ => [.declares scope name.lexeme]
    | .return _ none => fun _ => []
    | .return _ (some value) => Expr.events rounds depth owner scope value

end

/-- The events in a program, in order. -/
def Machine.events (limits : Limits) (program : Slots) (m : Machine) : List Event :=
  listSequence (execute limits.rounds limits.depth Store.root)
    (Stmt.events limits.rounds limits.depth none Store.root) program m

end LoxLang
