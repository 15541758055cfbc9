import LoxLang.Store

/-!
# Machines and runs

A machine is all that a program can change: the store, the supply of identities for function values,
what was printed, and what is left of the readings of the clock. A run works on a machine and gives a
value, unless it is halted; what the machine had become until then is kept in either case.

## Main definitions

* `Clock` — the readings of a clock.
* `Machine` — the state of a run.
* `Halt` — why a run is given up.
* `Run` — computations on a machine.
* `Run.lookUp`, `Run.assign`, `Run.declare`, `Run.openScope`, `Run.print`, `Run.close` — the steps
  from which evaluation is made.
-/

namespace LoxLang

/-- What a clock tells in seconds, each time that it is read. -/
abbrev Clock := Nat → Float

/-- What a clock tells after it was read once. -/
def Clock.later (clock : Clock) : Clock := fun n => clock (n + 1)

/-- The state of a run. -/
structure Machine where
  store : Store
  /-- The identity of the function value to be made next. -/
  nextIdentity : Nat
  /-- What was printed so far, an entry for each time. -/
  output : Array String
  /-- What the clock is going to tell. -/
  clock : Clock

namespace Machine

/-- A machine that has run nothing yet: the native functions are bound at the root. -/
def initial (clock : Clock) : Machine where
  store := Native.all.foldl (fun s f => s.define Store.root f.name (.native f)) Store.initial
  nextIdentity := 0
  output := #[]
  clock := clock

/-- The bindings of the scope at the root. -/
def globals (m : Machine) : List (String × Value) :=
  match m.store.scopes[Store.root]? with
  | some scope => scope.bindings
  | none => []

end Machine

/-- Why a run is given up. -/
inductive Halt
  | fault (f : RuntimeFault)
  /-- Evaluation nests deeper than the limit. -/
  | tooDeep
  /-- A loop goes round more often than the limit. -/
  | tooLong

/-- A computation on a machine. -/
abbrev Run (α : Type) := EStateM Halt Machine α

namespace Run

/-- Gives up at a token. -/
def fault {α : Type} (token : Token) (cause : RuntimeFault.Cause) : Run α :=
  throw (.fault ⟨cause, token⟩)

/-- Goes on with a value, or gives up at a token. -/
def ofExcept {α : Type} (token : Token) : Except RuntimeFault.Cause α → Run α
  | .ok value => pure value
  | .error cause => fault token cause

/-- The value of a variable as seen from a scope. -/
def lookUp (name : Token) (scope : ScopeId) : Run Value := do
  match (← get).store.get? scope name.lexeme with
  | some value => return value
  | none => fault name (.undefinedVariable name.lexeme)

/-- Changes the variable that is seen from a scope. -/
def assign (name : Token) (scope : ScopeId) (value : Value) : Run Unit := do
  match (← get).store.assign? scope name.lexeme value with
  | some store => modify fun m => { m with store := store }
  | none => fault name (.undefinedVariable name.lexeme)

/-- Binds a variable in a scope itself. -/
def declare (name : Token) (scope : ScopeId) (value : Value) : Run Unit :=
  modify fun m => { m with store := m.store.define scope name.lexeme value }

/-- Binds parameters to arguments, in order. -/
def declareAll (scope : ScopeId) : List Token → List Value → Run Unit
  | name :: names, value :: values => do
    declare name scope value
    declareAll scope names values
  | _, _ => return ()

/-- Makes a new scope under a parent. -/
def openScope (parent : ScopeId) : Run ScopeId :=
  modifyGet fun m =>
    let place := m.store.next
    (place, { m with store := m.store.child parent })

/-- Prints one entry. -/
def print (text : String) : Run Unit :=
  modify fun m => { m with output := m.output.push text }

/-- Makes a new function value of a declaration in a scope. -/
def close (name : Token) (parameters : List Token) (body : Slots) (scope : ScopeId) : Run Value :=
  modifyGet fun m =>
    (.closure ⟨m.nextIdentity, name, parameters, body, scope⟩,
      { m with nextIdentity := m.nextIdentity + 1 })

/-- Calls a native function. Each call of the clock takes a reading. -/
def callNative : Native → Run Value
  | .clock => modifyGet fun m => (.number (m.clock 0), { m with clock := m.clock.later })

end Run

end LoxLang
