import LoxLang.Fault
import LoxLang.Number.Written
import LoxLang.Syntax

/-!
# Values

A value is nil, a truth value, a number, a string or something that can be called. A function value
is told from others by an identity that it got when its declaration was executed, never by its text.

## Main definitions

* `Value`, `Closure`, `Native` — values, and what can be called.
* `Value.truthy`, `Value.equals`, `Value.display` — the three things that every value can do.
* `Value.unary`, `Value.binary`, `Value.settles` — the operators on values.
-/

namespace LoxLang

/-- A place in the store. -/
abbrev ScopeId := Nat

/-- Functions that are there from the start. -/
inductive Native
  /-- The time in seconds. -/
  | clock
deriving DecidableEq, Repr

/-- A function value: a declaration and the scope in which it was executed. -/
structure Closure where
  identity : Nat
  name : Token
  parameters : List Token
  body : Slots
  scope : ScopeId

/-- What a program computes with. -/
inductive Value
  | nil
  | bool (value : Bool)
  | number (value : Float)
  | string (value : String)
  | closure (function : Closure)
  | native (function : Native)

instance : Inhabited Value := ⟨.nil⟩

/-- The name under which a native function is bound. -/
def Native.name : Native → String
  | clock => "clock"

/-- How many arguments a native function takes. -/
def Native.arity : Native → Nat
  | clock => 0

/-- The native functions. -/
def Native.all : List Native := [.clock]

/-- How many arguments a function value takes. -/
def Closure.arity (f : Closure) : Nat := f.parameters.length

namespace Value

/-- The value that a literal stands for. -/
def ofLiteral : Literal → Value
  | .nil => .nil
  | .bool b => .bool b
  | .number x => .number x
  | .string s => .string s

/-- Whether a value counts as true: all do but nil and false. -/
def truthy : Value → Bool
  | .nil => false
  | .bool b => b
  | _ => true

/-- Equality of values. Values of two sorts differ; a number that is none equals itself, the zeros
equal each other, and functions are equal if they are the same one. -/
def equals : Value → Value → Bool
  | .nil, .nil => true
  | .bool a, .bool b => a == b
  | .number x, .number y => x == y || (x.isNaN && y.isNaN)
  | .string s, .string t => s == t
  | .closure f, .closure g => f.identity == g.identity
  | .native f, .native g => f == g
  | _, _ => false

/-- The text that is printed for a value. -/
def display : Value → String
  | .nil => "nil"
  | .bool true => "true"
  | .bool false => "false"
  | .number x => displayNumber x
  | .string s => s
  | .closure f => "<fn " ++ f.name.lexeme ++ ">"
  | .native _ => "<native fn>"

/-- An operator in front of a value. Any operator but the negation of truth negates a number. -/
def unary (operator : Token.Kind) (operand : Value) : Except RuntimeFault.Cause Value :=
  match operator, operand with
  | .bang, v => .ok (.bool !v.truthy)
  | _, .number x => .ok (.number (-x))
  | _, _ => .error .operandNotNumber

/-- The operators that work on two numbers alone. -/
def arithmetic (operator : Token) (x y : Float) : Except RuntimeFault.Cause Value :=
  match operator.kind with
  | .minus => .ok (.number (x - y))
  | .star => .ok (.number (x * y))
  | .slash => .ok (.number (x / y))
  | .greater => .ok (.bool (x > y))
  | .greaterEqual => .ok (.bool (x ≥ y))
  | .less => .ok (.bool (x < y))
  | .lessEqual => .ok (.bool (x ≤ y))
  | _ => .error (.unknownOperator operator.lexeme)

/-- The sum of two numbers, or two strings put together. -/
def sum : Value → Value → Except RuntimeFault.Cause Value
  | .number x, .number y => .ok (.number (x + y))
  | .string s, .string t => .ok (.string (s ++ t))
  | _, _ => .error .operandsNotAddable

/-- An operator between two values. Equality is defined for all values; any other operator but the
sum asks for numbers before it asks what it is. -/
def binary (operator : Token) (left right : Value) : Except RuntimeFault.Cause Value :=
  match operator.kind with
  | .equalEqual => .ok (.bool (left.equals right))
  | .bangEqual => .ok (.bool !left.equals right)
  | .plus => sum left right
  | _ =>
    match left, right with
    | .number x, .number y => arithmetic operator x y
    | _, _ => .error .operandsNotNumbers

/-- Whether the left side of a logical operator is already its value. Any operator but a disjunction
is a conjunction. -/
def settles (operator : Token.Kind) (left : Value) : Bool :=
  match operator with
  | .orWord => left.truthy
  | _ => !left.truthy

end Value

end LoxLang
