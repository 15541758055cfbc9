import LoxLang.Machine

/-!
# Evaluation

Expressions give values; statements complete normally or with a return, which unwinds to the nearest
call. Both are evaluated in a scope. Evaluation within evaluation is bounded by a depth, and a loop
by a number of rounds; a run that stays within its limits does not depend on them.

## Main definitions

* `Limits` — the bounds on a run and on showing trees.
* `Completion` — how a statement completes.
* `evaluate`, `execute` — expressions and statements.
* `Machine.interpret` — a program at the root.
-/

namespace LoxLang

/-- The bounds on nesting while reading, while running and while showing trees, and on the rounds of
a loop. -/
structure Limits where
  reading : Nat
  depth : Nat
  rounds : Nat
  rendering : Nat
deriving DecidableEq, Repr

/-- The limits on a stack of so many calls. A loop goes round as long as anyone can wait. -/
def Limits.ofCalls (calls : Nat) : Limits := ⟨calls / 2, calls, Nat.pow 2 62, calls⟩

/-- How a statement completes. -/
inductive Completion
  | normal
  /-- With the value of a return, whose keyword is kept. -/
  | returned (value : Value) (keyword : Token)

/-- The value of a function body that completed so: nil if it reached its end. -/
def Completion.value : Completion → Value
  | normal => .nil
  | returned value _ => value

namespace Run

/-- Evaluates expressions from left to right, with the values so far in reverse. -/
def allOnto (evaluate : Expr → Run Value) (values : List Value) : List Expr → Run (List Value)
  | [] => return values.reverse
  | e :: rest => do
    let value ← evaluate e
    allOnto evaluate (value :: values) rest

/-- Evaluates expressions from left to right. -/
def all (evaluate : Expr → Run Value) (es : List Expr) : Run (List Value) := allOnto evaluate [] es

/-- Executes the statements in slots in order, up to the first return. Empty slots are passed
over. -/
def sequence (execute : Stmt → Run Completion) : Slots → Run Completion
  | [] => return .normal
  | none :: rest => sequence execute rest
  | some statement :: rest => do
    match ← execute statement with
    | .normal => sequence execute rest
    | .returned value keyword => return .returned value keyword

/-- Goes round a loop while the condition is true, up to the first return. -/
def iterate (condition : Run Value) (body : Run Completion) : Nat → Run Completion
  | 0 => throw .tooLong
  | rounds + 1 => do
    let value ← condition
    if value.truthy then
      match ← body with
      | .normal => iterate condition body rounds
      | .returned value keyword => return .returned value keyword
    else return .normal

/-- Calls a value with arguments. A function value runs its body in a new scope under its own. -/
def call (execute : ScopeId → Stmt → Run Completion) (callee : Value) (paren : Token)
    (arguments : List Value) : Run Value :=
  match callee with
  | .closure f => do
    if arguments.length ≠ f.arity then fault paren (.wrongArity f.arity arguments.length)
    let scope ← openScope f.scope
    declareAll scope f.parameters arguments
    let completion ← sequence (execute scope) f.body
    return completion.value
  | .native f => do
    if arguments.length ≠ f.arity then fault paren (.wrongArity f.arity arguments.length)
    callNative f
  | other => fault paren (.notCallable other.display)

end Run

open Run

mutual

/-- Evaluates an expression in a scope. -/
def evaluate (rounds : Nat) : (depth : Nat) → ScopeId → Expr → Run Value
  | 0, _, _ => throw .tooDeep
  | depth + 1, scope, e =>
    match e with
    | .literal value => return .ofLiteral value
    | .grouping inner => evaluate rounds depth scope inner
    | .variable name => lookUp name scope
    | .assign name value => do
      let value ← evaluate rounds depth scope value
      assign name scope value
      return value
    | .unary operator operand => do
      let value ← evaluate rounds depth scope operand
      ofExcept operator (value.unary operator.kind)
    | .binary left operator right => do
      let left ← evaluate rounds depth scope left
      let right ← evaluate rounds depth scope right
      ofExcept operator (Value.binary operator left right)
    | .logical left operator right => do
      let left ← evaluate rounds depth scope left
      if left.settles operator.kind then return left
      evaluate rounds depth scope right
    | .call callee paren arguments => do
      let callee ← evaluate rounds depth scope callee
      let arguments ← all (evaluate rounds depth scope) arguments
      call (execute rounds depth) callee paren arguments

/-- Executes a statement in a scope. -/
def execute (rounds : Nat) : (depth : Nat) → ScopeId → Stmt → Run Completion
  | 0, _, _ => throw .tooDeep
  | depth + 1, scope, statement =>
    match statement with
    | .expression value => do
      let _ ← evaluate rounds depth scope value
      return .normal
    | .print value => do
      let value ← evaluate rounds depth scope value
      print value.display
      return .normal
    | .var name none => do
      declare name scope .nil
      return .normal
    | .var name (some initial) => do
      let value ← evaluate rounds depth scope initial
      declare name scope value
      return .normal
    | .block body => do
      let inner ← openScope scope
      sequence (execute rounds depth inner) body
    | .branch condition whenTrue whenFalse => do
      let value ← evaluate rounds depth scope condition
      if value.truthy then execute rounds depth scope whenTrue
      else
        match whenFalse with
        | some whenFalse => execute rounds depth scope whenFalse
        | none => return .normal
    | .loop condition body =>
      iterate (evaluate rounds depth scope condition) (execute rounds depth scope body) rounds
    | .function name parameters body => do
      let value ← close name parameters body scope
      declare name scope value
      return .normal
    | .return keyword none => return .returned .nil keyword
    | .return keyword (some value) => do
      let value ← evaluate rounds depth scope value
      return .returned value keyword

end

/-- How the run of a program ends. -/
inductive Ending
  | finished
  | faulted (f : RuntimeFault)
  | tooDeep
  | tooLong

/-- Runs a program at the root. A return that no call takes is a fault at its keyword. -/
def Machine.interpret (limits : Limits) (program : Slots) (m : Machine) : Machine × Ending :=
  match sequence (execute limits.rounds limits.depth Store.root) program m with
  | .ok .normal m => (m, .finished)
  | .ok (.returned _ keyword) m => (m, .faulted ⟨.returnOutsideFunction, keyword⟩)
  | .error (.fault f) m => (m, .faulted f)
  | .error .tooDeep m => (m, .tooDeep)
  | .error .tooLong m => (m, .tooLong)

end LoxLang
